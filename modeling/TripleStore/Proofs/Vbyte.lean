import Mathlib.Tactic.Ring
import TripleStore.Vbyte
import TripleStore.Proofs.Bytes.Reads

/-!
# Variable-length numbers come back

Reading goes through the groups of a number as writing put them: what was read
before stands below the groups that are still to come (`reads_readFrom`).
Whatever is read, it is below the bound (`yields_read`).
-/

namespace TripleStore

namespace Emit

theorem emits_vbyte (n : Nat) (r : Running) :
    Emits (Vbyte.write n) r (Vbyte.encode n) (r.absorb (Vbyte.encode n)) := by
  have h := emits_bind (emits_writeAll (Vbyte.encode n) r) fun _ =>
    emits_pure (Vbyte.encode n).length (r.absorb (Vbyte.encode n))
  rwa [List.append_nil] at h

end Emit

namespace Vbyte

theorem toNat_toUInt8 {n : Nat} (h : n < 256) : n.toUInt8.toNat = n :=
  UInt8.toNat_ofNat_of_lt' h

theorem group_last {n : Nat} (h : n < 128) :
    group (128 + n).toUInt8 = n ∧ isLast (128 + n).toUInt8 = true := by
  rw [group, isLast, toNat_toUInt8 (by omega), decide_eq_true_eq]
  omega

theorem group_more (n : Nat) :
    group (n % 128).toUInt8 = n % 128 ∧ isLast (n % 128).toUInt8 = false := by
  rw [group, isLast, toNat_toUInt8 (by omega), decide_eq_false_iff_not]
  omega

theorem push_eq {bits : Nat} {p : Partial} {b : UInt8} (hshift : p.shift < bits)
    (hfits : group b * capacity p.shift < capacity bits) :
    p.push bits b = .ok ⟨p.value + group b * capacity p.shift,
      p.shift + 7⟩ := by
  rw [Partial.push, if_neg (by omega)]

theorem lt_of_capacity_lt {m n : Nat} (h : capacity m < capacity n) :
    m < n := by
  rw [capacity_eq_pow, capacity_eq_pow] at h
  exact (Nat.pow_lt_pow_iff_right (by decide)).mp h

/-- A byte that fits is read, and then the rest if there is one. -/
theorem reads_readFrom_of_push {bits : Nat} {p q : Partial} {b : UInt8}
    (hpush : p.push bits b = .ok q) {rest : Bytes} {P : Nat → Prop}
    {r r' : Running}
    (hrest : Scan.Reads (if isLast b then pure q.value else readFrom bits q)
      (r.absorb [b]) rest P r') :
    Scan.Reads (readFrom bits p) r (b :: rest) P r' := by
  rw [readFrom, ← List.singleton_append]
  refine Scan.reads_bind (Scan.reads_byte b r) ?_
  rintro _ rfl
  split
  · next hq => cases hpush.symm.trans hq
  · next hq =>
      cases hpush.symm.trans hq
      exact hrest

/-- Groups are read one by one, each in its place above those before it. -/
theorem reads_readFrom {bits n : Nat} {p : Partial} (hshift : p.shift < bits)
    (hfits : n * capacity p.shift < capacity bits) (r : Running) :
    Scan.Reads (readFrom bits p) r (encode n)
      (· = p.value + n * capacity p.shift) (r.absorb (encode n)) := by
  -- on the number, since what is left of it shrinks while the groups read so
  -- far pile up in `p`
  induction n using Nat.strongRecOn generalizing p r with
  | ind n ih =>
      have hpos := capacity_pos p.shift
      rw [encode]
      split
      · next hlt =>
          obtain ⟨hgroup, hlast⟩ := group_last hlt
          apply reads_readFrom_of_push
            (push_eq (b := (128 + n).toUInt8) hshift (by rwa [hgroup]))
          rw [hlast, hgroup]
          exact Scan.reads_pure (P := (· = p.value + n * capacity p.shift)) rfl _
      · next hge =>
          obtain ⟨hgroup, hlast⟩ := group_more n
          have hstep : capacity (p.shift + 7) = capacity p.shift * 128 := by
            rw [capacity_add]
            rfl
          have hsplit : n * capacity p.shift =
              n % 128 * capacity p.shift + n / 128 *
                capacity (p.shift + 7) := by
            have hn := Nat.mod_add_div n 128
            calc n * capacity p.shift
                = (n % 128 + 128 * (n / 128)) * capacity p.shift := by rw [hn]
              _ = _ := by rw [hstep]; ring
          -- something is left above this group, so the next shift is still
          -- below the bound
          have hroom : p.shift + 7 < bits := by
            apply lt_of_capacity_lt
            have hhigh :
                1 * capacity (p.shift + 7) ≤ n / 128 * capacity (p.shift + 7) :=
              Nat.mul_le_mul_right _ (by omega)
            omega
          apply reads_readFrom_of_push
            (push_eq (b := (n % 128).toUInt8) hshift (by rw [hgroup]; omega))
          have hrest := ih (n / 128) (by omega)
            (p := ⟨p.value + n % 128 * capacity p.shift, p.shift + 7⟩) hroom
            (by dsimp only; omega) (r.absorb [(n % 128).toUInt8])
          rw [hlast, hgroup, hsplit, ← Nat.add_assoc, ← List.singleton_append,
            Running.absorb_append]
          exact hrest

/-- A number below the capacity comes back. -/
theorem reads_read {bits n : Nat} (hpos : 0 < bits) (hfits : n < capacity bits)
    (r : Running) :
    Scan.Reads (read bits) r (encode n) (· = n) (r.absorb (encode n)) := by
  have h := reads_readFrom (p := .empty) hpos
    (by simpa [Partial.empty] using hfits) r
  simp only [Partial.empty, capacity_zero, Nat.mul_one, Nat.zero_add] at h
  exact h

/-! ## What can be read -/

/-- The groups read so far stay below the place of the next one and below the
bound. -/
theorem Partial.value_lt_of_push {bits : Nat} {p q : Partial} {b : UInt8}
    (hvalue : p.value < capacity p.shift) (h : p.push bits b = .ok q) :
    q.value < capacity q.shift ∧ q.value < capacity bits := by
  unfold push at h
  split at h
  · cases h
  · next hfits =>
      cases h
      obtain ⟨hshift, hgroup⟩ := not_or.mp hfits
      have hbelow :
          p.value + group b * capacity p.shift <
            (group b + 1) * capacity p.shift := by
        rw [Nat.succ_mul, Nat.add_comm]
        exact Nat.add_lt_add_left hvalue _
      have hgroups : group b + 1 ≤ 128 := Nat.mod_lt _ (by decide)
      have hbits :
          capacity bits = capacity (bits - p.shift) * capacity p.shift := by
        rw [← capacity_add, Nat.sub_add_cancel (Nat.le_of_not_le hshift)]
      constructor
      · calc p.value + group b * capacity p.shift
            < (group b + 1) * capacity p.shift := hbelow
          _ ≤ capacity 7 * capacity p.shift := Nat.mul_le_mul_right _ hgroups
          _ = capacity (p.shift + 7) := by rw [capacity_add, Nat.mul_comm]
      · rw [hbits, Nat.not_le] at hgroup
        rw [hbits]
        exact Nat.lt_of_lt_of_le hbelow
          (Nat.mul_le_mul_right _ (Nat.lt_of_mul_lt_mul_right hgroup))

theorem yields_readFrom {bits : Nat} {p : Partial}
    (hvalue : p.value < capacity p.shift) :
    Scan.Yields (readFrom bits p) (· < capacity bits) := by
  -- on what is left of the width, since every group that is taken comes seven
  -- bits higher
  induction h : bits - p.shift using Nat.strongRecOn generalizing p with
  | ind n ih =>
      subst h
      rw [readFrom]
      refine Scan.yields_bind fun b => ?_
      split
      · exact Scan.yields_throw _ _
      · next q hpush =>
          obtain ⟨hlt, hshift⟩ := Partial.shift_lt_of_push hpush
          obtain ⟨hplace, hbits⟩ := Partial.value_lt_of_push hvalue hpush
          split
          · exact Scan.yields_pure hbits
          · exact ih _ (by rw [hshift]; omega) hplace rfl

/-- No number from the capacity on is read. -/
theorem yields_read (bits : Nat) :
    Scan.Yields (read bits) (· < capacity bits) :=
  yields_readFrom Nat.zero_lt_one

end Vbyte

end TripleStore
