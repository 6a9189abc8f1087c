import TripleStore.Bytes.Sink

/-!
# What a sink takes

Calls that each take something put bytes into a sink one behind another
(`Accepts`), until a call takes nothing of what it is offered (`Refuses`). Bytes
that are offered piece by piece until they are taken so come in as a whole, or
come in up to the first call that is refused (`Stops`). A sink with room for `n`
bytes stops just what is longer, and takes `n` bytes of it
(`toBytes_of_stops_limited`).
-/

namespace TripleStore.Sink

/-- `bytes` come into the sink by calls that each take something. -/
inductive Accepts : Sink → Bytes → Sink → Prop where
  | nothing (s : Sink) : Accepts s [] s
  | call {s s' : Sink} {offered rest : Bytes} (htaken : 0 < (s.offer offered).1)
      (hrest : Accepts (s.offer offered).2 rest s') :
      Accepts s (offered.take (s.offer offered).1 ++ rest) s'

/-- A call takes nothing of what it is offered. -/
def Refuses (s s' : Sink) : Prop :=
  ∃ offered, offered ≠ [] ∧ s.offer offered = (0, s')

/-- Of `bytes` those in front, `taken`, come into the sink, and then a call is
refused. -/
structure Stops (s : Sink) (bytes taken : Bytes) (s' : Sink) : Prop where
  isPrefix : taken <+: bytes
  ne : taken ≠ bytes
  last : ∃ before, s.Accepts taken before ∧ before.Refuses s'

/-- The sink takes something of whatever it is offered. -/
def Willing (s : Sink) : Prop :=
  ∀ calls written offered, 0 < offered → 0 < s.takes calls written offered

variable {s s' s₁ : Sink} {a b bytes taken : Bytes} {n : Nat}

theorem toBytes_offer (s : Sink) (offered : Bytes) :
    (s.offer offered).2.toBytes = s.toBytes ++
      offered.take (s.offer offered).1 := by
  simp [offer, toBytes]

theorem takes_offer (s : Sink) (offered : Bytes) :
    (s.offer offered).2.takes = s.takes := rfl

theorem size_toBytes (s : Sink) : s.toBytes.length = s.written.size :=
  Array.length_toList

/-! ## Bytes that come in -/

theorem Accepts.append (ha : s.Accepts a s₁) (hb : s₁.Accepts b s') :
    s.Accepts (a ++ b) s' := by
  induction ha with
  | nothing => exact hb
  | call htaken _ ih =>
      rw [List.append_assoc]
      exact .call htaken (ih hb)

theorem Accepts.toBytes (h : s.Accepts bytes s') :
    s'.toBytes = s.toBytes ++ bytes := by
  induction h with
  | nothing => exact (List.append_nil _).symm
  | call _ _ ih => rw [ih, toBytes_offer, List.append_assoc]

theorem Accepts.takes (h : s.Accepts bytes s') : s'.takes = s.takes := by
  induction h with
  | nothing => rfl
  | call _ _ ih => exact ih

theorem Refuses.toBytes (h : s.Refuses s') : s'.toBytes = s.toBytes := by
  obtain ⟨offered, -, hoffer⟩ := h
  have hbytes := toBytes_offer s offered
  rwa [hoffer, List.take_zero, List.append_nil] at hbytes

theorem Refuses.takes (h : s.Refuses s') : s'.takes = s.takes := by
  obtain ⟨offered, -, hoffer⟩ := h
  rw [← takes_offer s offered, hoffer]

theorem accepts_offer {offered : Bytes} (h : 0 < (s.offer offered).1) :
    s.Accepts (offered.take (s.offer offered).1) (s.offer offered).2 := by
  have hcall := Accepts.call h (.nothing _)
  rwa [List.append_nil] at hcall

/-! ## Bytes that do not all come in -/

/-- What stops in its first piece stops. -/
theorem Stops.append (h : s.Stops a taken s') (b : Bytes) :
    s.Stops (a ++ b) taken s' where
  isPrefix := h.isPrefix.trans (List.prefix_append a b)
  ne := by
    rintro rfl
    exact h.ne (h.isPrefix.eq_of_length_le (by simp))
  last := h.last

/-- What stops behind its first piece stops. -/
theorem Accepts.stops (ha : s.Accepts a s₁) (hb : s₁.Stops b taken s') :
    s.Stops (a ++ b) (a ++ taken) s' where
  isPrefix := (List.prefix_append_right_inj a).mpr hb.isPrefix
  ne := fun heq => hb.ne (List.append_cancel_left heq)
  last := by
    obtain ⟨before, haccepts, hrefuses⟩ := hb.last
    exact ⟨before, ha.append haccepts, hrefuses⟩

/-- What is not empty stops where its first call is refused. -/
theorem Refuses.stops (h : s.Refuses s') (hbytes : bytes ≠ []) :
    s.Stops bytes [] s' :=
  ⟨List.nil_prefix, hbytes.symm, s, .nothing s, h⟩

theorem Stops.toBytes (h : s.Stops bytes taken s') :
    s'.toBytes = s.toBytes ++ taken := by
  obtain ⟨before, haccepts, hrefuses⟩ := h.last
  rw [hrefuses.toBytes, haccepts.toBytes]

theorem Stops.takes (h : s.Stops bytes taken s') : s'.takes = s.takes := by
  obtain ⟨before, haccepts, hrefuses⟩ := h.last
  rw [hrefuses.takes, haccepts.takes]

theorem Willing.not_stops (h : s.Willing) : ¬ s.Stops bytes taken s' := by
  rintro ⟨-, -, before, haccepts, offered, hne, hoffer⟩
  have htakes :
      0 < before.takes before.calls before.written.size offered.length := by
    rw [haccepts.takes]
    exact h _ _ _ (List.length_pos_iff.mpr hne)
  have hzero :
      min offered.length
        (before.takes before.calls before.written.size offered.length) = 0 :=
    congrArg Prod.fst hoffer
  rcases Nat.min_eq_zero_iff.mp hzero with hlength | hnone
  · exact hne (List.eq_nil_of_length_eq_zero hlength)
  · exact Nat.ne_of_gt htakes hnone

theorem willing_unlimited : unlimited.Willing := fun _ _ _ h => h

/-! ## Room for so many bytes -/

/-- What comes in finds room. -/
theorem Accepts.size_le (h : s.Accepts bytes s')
    (htakes : s.takes = (limited n).takes) (hroom : s.written.size ≤ n) :
    s'.written.size ≤ n := by
  induction h with
  | nothing => exact hroom
  | @call s s' offered rest htaken hrest ih =>
      refine ih htakes ?_
      have htaken :
          (s.offer offered).1 = min offered.length (n - s.written.size) := by
        show min offered.length
          (s.takes s.calls s.written.size offered.length) = _
        rw [htakes]
        rfl
      rw [← size_toBytes, toBytes_offer, List.length_append, List.length_take,
        size_toBytes, htaken]
      omega

/-- Nothing is refused while there is room. -/
theorem Refuses.le_size (h : s.Refuses s')
    (htakes : s.takes = (limited n).takes) :
    n ≤ s.written.size := by
  obtain ⟨offered, hne, hoffer⟩ := h
  have hlength := List.length_pos_iff.mpr hne
  have htaken :
      min offered.length (s.takes s.calls s.written.size offered.length) = 0 :=
    congrArg Prod.fst hoffer
  rw [htakes] at htaken
  have hroom : min offered.length (n - s.written.size) = 0 := htaken
  omega

theorem length_le_of_accepts_limited (h : (limited n).Accepts bytes s') :
    bytes.length ≤ n := by
  have hsize := h.size_le rfl (Nat.zero_le n)
  rw [← size_toBytes, h.toBytes] at hsize
  exact hsize

/-- A sink with room for `n` bytes holds `n` bytes when a call is refused. -/
theorem toBytes_of_stops_limited (h : (limited n).Stops bytes taken s') :
    n < bytes.length ∧ s'.toBytes = bytes.take n := by
  have hbytes : s'.toBytes = taken := h.toBytes
  obtain ⟨before, haccepts, hrefuses⟩ := h.last
  have hfull : taken.length = n := by
    refine Nat.le_antisymm (length_le_of_accepts_limited haccepts) ?_
    rw [show taken = before.toBytes from haccepts.toBytes.symm, size_toBytes]
    exact hrefuses.le_size haccepts.takes
  have hlt : taken.length < bytes.length :=
    Nat.lt_of_le_of_ne h.isPrefix.length_le fun heq =>
      h.ne (h.isPrefix.eq_of_length heq)
  refine ⟨hfull ▸ hlt, ?_⟩
  rw [hbytes, ← hfull]
  exact List.prefix_iff_eq_take.mp h.isPrefix

end TripleStore.Sink
