import TripleStore.Bytes.Emit
import TripleStore.Proofs.Bytes.Sinks

/-!
# What an emission writes

Into whatever sink, an emission writes bytes that do not depend on what was
written before, or stops at the first call that takes nothing. Bytes and running
checksum are followed together (`Emits`); a section starts its checksum anew, so
what it writes does not depend on the checksum either (`Writes`).
-/

namespace TripleStore

/-- Bytes with their check behind them. -/
def sealed (kind : Checksum) (bytes : Bytes) : Bytes :=
  bytes ++ ((Running.start kind).absorb bytes).trailer

namespace Emit

variable {α β : Type}

/-- The emission writes `out` and takes the running checksum from `r` to `r'`.
Where a call takes nothing before all of `out` is written, that call is the
last, and the emission fails. -/
def Emits (act : Emit α) (r : Running) (out : Bytes) (r' : Running) : Prop :=
  ∀ sink : Sink,
    (∃ a sink', sink.Accepts out sink' ∧ act ⟨sink, r⟩ = .ok a ⟨sink', r'⟩) ∨
    ∃ taken s, sink.Stops out taken s.sink ∧
      act ⟨sink, r⟩ = .error (.io .full) s

theorem bind_of_ok {act : Emit α} {f : α → Emit β} {s s₁ : State} {a : α}
    (h : act s = .ok a s₁) :
    (act >>= f) s = f a s₁ := by
  show EStateM.bind act f s = _
  rw [EStateM.bind, h]

theorem bind_of_error {act : Emit α} {f : α → Emit β} {s s₁ : State} {e : Error}
    (h : act s = .error e s₁) : (act >>= f) s = .error e s₁ := by
  show EStateM.bind act f s = _
  rw [EStateM.bind, h]

theorem emits_bind {act : Emit α} {f : α → Emit β} {r r₁ r₂ : Running}
    {out rest : Bytes} (hact : Emits act r out r₁)
    (hf : ∀ a, Emits (f a) r₁ rest r₂) :
    Emits (act >>= f) r (out ++ rest) r₂ := by
  intro sink
  rcases hact sink with ⟨a, sink₁, haccepts, hact⟩ | ⟨taken, s, hstops, hact⟩
  · rw [bind_of_ok hact]
    rcases hf a sink₁ with ⟨b, sink₂, hrest, hf⟩ | ⟨taken, s, hstops, hf⟩
    · exact .inl ⟨b, sink₂, haccepts.append hrest, hf⟩
    · exact .inr ⟨out ++ taken, s, haccepts.stops hstops, hf⟩
  · exact .inr ⟨taken, s, hstops.append rest, bind_of_error hact⟩

/-- The first step may write nothing. -/
theorem emits_silent {act : Emit α} {f : α → Emit β} {r r₁ r₂ : Running}
    {out : Bytes} (hact : Emits act r [] r₁) (hf : ∀ a, Emits (f a) r₁ out r₂) :
    Emits (act >>= f) r out r₂ :=
  emits_bind hact hf

theorem emits_pure (a : α) (r : Running) : Emits (pure a) r [] r :=
  fun sink => .inl ⟨a, sink, .nothing sink, rfl⟩

theorem emits_restart (kind : Checksum) (r : Running) :
    Emits (restart kind) r [] (.start kind) :=
  fun sink => .inl ⟨(), sink, .nothing sink, rfl⟩

/-- Bytes are offered until all are taken or a call takes nothing, and the
running checksum has taken in what the sink has. -/
theorem writeAll_cases (bytes : Bytes) (sink : Sink) (r : Running) :
    (∃ sink', sink.Accepts bytes sink' ∧
      writeAll bytes ⟨sink, r⟩ = .ok () ⟨sink', r.absorb bytes⟩) ∨
    ∃ taken sink', sink.Stops bytes taken sink' ∧
      writeAll bytes ⟨sink, r⟩ =
        .error (.io .full) ⟨sink', r.absorb taken⟩ := by
  -- on the bytes that are left, of which a call that takes something leaves fewer
  induction hlength : bytes.length
    using Nat.strongRecOn generalizing bytes sink r with
  | ind length ih =>
      subst hlength
      by_cases hnil : bytes = []
      · subst hnil
        rw [writeAll, dif_pos rfl]
        exact .inl ⟨sink, .nothing sink, rfl⟩
      have hwrite : write bytes ⟨sink, r⟩ = .ok (sink.offer bytes).1
          ⟨(sink.offer bytes).2, r.absorb (bytes.take (sink.offer bytes).1)⟩ := rfl
      rw [writeAll, dif_neg hnil, bind_of_ok hwrite]
      by_cases hzero : (sink.offer bytes).1 = 0
      · have hrefuses : sink.Refuses (sink.offer bytes).2 :=
          ⟨bytes, hnil, Prod.ext hzero rfl⟩
        rw [dif_pos hzero, hzero]
        exact .inr ⟨[], _, hrefuses.stops hnil, rfl⟩
      · have htaken : 0 < (sink.offer bytes).1 := Nat.pos_of_ne_zero hzero
        have hsplit := List.take_append_drop (sink.offer bytes).1 bytes
        have hfirst := Sink.accepts_offer htaken
        have hshorter :
            (bytes.drop (sink.offer bytes).1).length < bytes.length := by
          rw [List.length_drop]
          exact Nat.sub_lt (List.length_pos_iff.mpr hnil) htaken
        rw [dif_neg hzero]
        rcases ih _ hshorter (bytes.drop (sink.offer bytes).1)
          (sink.offer bytes).2
            (r.absorb (bytes.take (sink.offer bytes).1)) rfl with
          ⟨sink', haccepts, hrest⟩ | ⟨taken, sink', hstops, hrest⟩
        · have hall := hfirst.append haccepts
          rw [hsplit] at hall
          rw [← Running.absorb_append, hsplit] at hrest
          exact .inl ⟨sink', hall, hrest⟩
        · have hall := hfirst.stops hstops
          rw [hsplit] at hall
          rw [← Running.absorb_append] at hrest
          exact .inr ⟨_, sink', hall, hrest⟩

theorem emits_writeAll (bytes : Bytes) (r : Running) :
    Emits (writeAll bytes) r bytes (r.absorb bytes) := by
  intro sink
  rcases writeAll_cases bytes sink r with ⟨sink', haccepts, hwrite⟩ |
    ⟨taken, sink', hstops, hwrite⟩
  · exact .inl ⟨(), sink', haccepts, hwrite⟩
  · exact .inr ⟨taken, _, hstops, hwrite⟩

theorem emits_forM {f : α → Bytes} {act : α → Emit PUnit}
    (h : ∀ a r, Emits (act a) r (f a) (r.absorb (f a))) (l : List α)
    (r : Running) :
    Emits (l.forM act) r (l.flatMap f) (r.absorb (l.flatMap f)) := by
  induction l generalizing r with
  | nil => exact emits_pure _ r
  | cons a l ih =>
      rw [List.flatMap_cons, Running.absorb_append]
      exact emits_bind (h a r) fun _ => ih _

theorem emits_trailer (r : Running) :
    Emits trailer r r.trailer (r.absorb r.trailer) :=
  emits_writeAll r.trailer r

/-! ## Sections -/

/-- The emission writes `out`, whatever the running checksum is. -/
def Writes (act : Emit Unit) (out : Bytes) : Prop :=
  ∀ r, ∃ r', Emits act r out r'

variable {act act' : Emit Unit} {out rest : Bytes}

theorem writes_bind (h : Writes act out) (h' : Writes act' rest) :
    Writes (act >>= fun _ => act') (out ++ rest) := by
  intro r
  obtain ⟨r₁, hact⟩ := h r
  obtain ⟨r₂, hact'⟩ := h' r₁
  exact ⟨r₂, emits_bind hact fun _ => hact'⟩

/-- All of `out` comes into the sink and the emission succeeds, or the sink
stops it and it fails. -/
theorem run_cases (h : Writes act out) (sink : Sink) :
    (sink.Accepts out (act.run sink).2 ∧ (act.run sink).1 = .ok ()) ∨
    ∃ taken, sink.Stops out taken (act.run sink).2 ∧
      (act.run sink).1 = .error (.io .full) := by
  obtain ⟨r', h⟩ := h (.start .standard)
  rcases h sink with ⟨_, sink', haccepts, hact⟩ | ⟨taken, s, hstops, hact⟩
  · have hrun : EStateM.run act (.ofSink sink) = .ok () ⟨sink', r'⟩ := hact
    rw [run, hrun]
    exact .inl ⟨haccepts, rfl⟩
  · have hrun : EStateM.run act (.ofSink sink) = .error (.io .full) s := hact
    rw [run, hrun]
    exact .inr ⟨taken, hstops, rfl⟩

theorem run_of_willing (h : Writes act out) {sink : Sink}
    (hsink : sink.Willing) :
    sink.Accepts out (act.run sink).2 ∧ (act.run sink).1 = .ok () := by
  rcases run_cases h sink with hall | ⟨taken, hstops, -⟩
  · exact hall
  · exact absurd hstops hsink.not_stops

theorem toBytes_of_writes (h : Writes act out) : act.toBytes = out :=
  (run_of_willing h Sink.willing_unlimited).1.toBytes

end Emit

end TripleStore
