import PioAssembler.Proofs.DraftParts
import PioAssembler.Proofs.Legality

/-!
# Packing the shared field

The delay and the side-set value of an instruction share five bits of its word, and the target of a jump
is filled in long after both. For a configuration that the directive accepts, none of the three is in the
way of another:

* which delays and values are accepted does not depend on the word (`SideSet.Packs.delay_iff`,
  `SideSet.Packs.side_iff`),
* the three can be written in any order (`Qualifier.apply_comm`, `Qualifier.apply_withTarget`),
* both numbers are read back from where they were written (`Word.read_packed`).
-/

namespace PioAssembler

/-! ### Any order -/

namespace Qualifier

/-- A target that is filled in first changes nothing about a qualifier, nor the other way round. -/
theorem apply_withTarget (q : Qualifier) (w : Word) (value : UInt8) (ss : SideSet) (target : Addr) :
    q.apply (w.withTarget target) value ss = (q.apply w value ss).map (·.withTarget target) := by
  rw [q.apply_eq_map, q.apply_eq_map w]
  cases q.apply 0 value ss with
  | error failure => rfl
  | ok bits =>
    show Except.ok (w ||| _ ||| bits) = Except.ok (w ||| bits ||| _)
    rw [BitVec.or_assoc, BitVec.or_comm _ bits, ← BitVec.or_assoc]

/-- A qualifier is accepted with the same bits in every word. -/
theorem apply_eq_ok_iff {q : Qualifier} {w r : Word} {value : UInt8} {ss : SideSet} :
    q.apply w value ss = .ok r ↔ ∃ bits, q.apply 0 value ss = .ok bits ∧ w ||| bits = r := by
  rw [q.apply_eq_map]
  cases q.apply 0 value ss <;> simp [Except.map]

/-- Two qualifiers are accepted exactly if each of them is by itself. -/
theorem apply_bind_eq_ok_iff {q q' : Qualifier} {w r : Word} {value value' : UInt8} {ss : SideSet} :
    (q.apply w value ss >>= fun w' => q'.apply w' value' ss) = .ok r ↔
      ∃ bits bits', q.apply 0 value ss = .ok bits ∧ q'.apply 0 value' ss = .ok bits' ∧
        w ||| bits ||| bits' = r := by
  constructor
  · intro h
    cases hfirst : q.apply w value ss with
    | error failure =>
      rw [hfirst] at h
      cases h
    | ok w' =>
      rw [hfirst] at h
      obtain ⟨bits, hbits, rfl⟩ := apply_eq_ok_iff.mp hfirst
      obtain ⟨bits', hbits', rfl⟩ := apply_eq_ok_iff.mp h
      exact ⟨bits, bits', hbits, hbits', rfl⟩
  · rintro ⟨bits, bits', hbits, hbits', rfl⟩
    rw [apply_eq_ok_iff.mpr ⟨bits, hbits, rfl⟩]
    exact apply_eq_ok_iff.mpr ⟨bits', hbits', rfl⟩

/-- Two qualifiers are accepted in one order exactly if they are in the other, with the same word. -/
theorem apply_comm (q q' : Qualifier) (w : Word) (value value' : UInt8) (ss : SideSet) (r : Word) :
    (q.apply w value ss >>= fun w' => q'.apply w' value' ss) = .ok r ↔
      (q'.apply w value' ss >>= fun w' => q.apply w' value ss) = .ok r := by
  have hor : ∀ bits bits' : Word, w ||| bits ||| bits' = w ||| bits' ||| bits := by
    intro bits bits'
    rw [BitVec.or_assoc, BitVec.or_comm bits, ← BitVec.or_assoc]
  rw [apply_bind_eq_ok_iff, apply_bind_eq_ok_iff]
  constructor
  · rintro ⟨bits, bits', hbits, hbits', rfl⟩
    exact ⟨bits', bits, hbits', hbits, hor _ _⟩
  · rintro ⟨bits', bits, hbits', hbits, rfl⟩
    exact ⟨bits, bits', hbits, hbits', hor _ _⟩

end Qualifier

namespace SideSet

variable {ss : SideSet}

/-- Delay and value fit the field side by side. -/
theorem Fits.room_add_width_le (hfit : ss.Fits) : ss.room + ss.width.toNat ≤ 5 := by
  have h5 := hfit.width_le
  have h4 := hfit.width_le_of_optional
  unfold room
  split
  · omega
  · split
    · next ho =>
      have := h4 ho
      omega
    · omega

/-- Above the delay stands the value, and above it the enable flag. -/
theorem sideNumber_eq (hfit : ss.Fits) (h0 : 0 < ss.width.toNat) (value : Nat) :
    ss.sideNumber value = 2 ^ ss.room * (value + if ss.optional then 2 ^ ss.width.toNat else 0) := by
  unfold sideNumber room
  rw [if_neg (Nat.ne_of_gt h0)]
  split
  · next ho =>
    have h16 : 2 ^ (4 - ss.width.toNat) * 2 ^ ss.width.toNat = 16 := by
      rw [← Nat.pow_add, Nat.sub_add_cancel (hfit.width_le_of_optional ho)]
    rw [Nat.mul_add, h16, Nat.mul_comm, Nat.add_comm]
  · rw [Nat.add_zero, Nat.mul_comm]

end SideSet

namespace Word

/-! ### Bits outside the shared field -/

/-- Bits 15 to 13 and 7 to 0 of two words are the same. -/
def SameOutside (w w' : Word) : Prop := ∀ i, i < 8 ∨ 13 ≤ i → w'.getLsbD i = w.getLsbD i

/-- Writing another shared field leaves the bits around it alone. -/
theorem sameOutside_ofFields (w : Word) (s : BitVec 5) :
    SameOutside w (ofFields (group w) s (selector w) (low w)) := by
  intro i hi
  have hw : w.getLsbD i = (ofFields (group w) (shared w) (selector w) (low w)).getLsbD i := by
    rw [ofFields_fields]
  rw [hw]
  simp only [ofFields, BitVec.getLsbD_append]
  by_cases h5 : i < 5
  · simp [h5]
  · by_cases h8 : i - 5 < 3
    · simp [h5, h8]
    · have hshared : ¬ i - 5 - 3 < 5 := by omega
      simp [h5, h8, hshared]

/-! ### Reading back -/

/-- A slice that starts with the shared field or inside it, as a number. -/
theorem toNat_extractLsb'_shared (w : Word) (start len : Nat) (h : start + len ≤ 5) :
    (w.extractLsb' (8 + start) len).toNat = (shared w).toNat / 2 ^ start % 2 ^ len := by
  rw [BitVec.extractLsb'_toNat, Nat.shiftRight_eq_div_pow, toNat_shared, Nat.pow_add,
    ← Nat.div_div_eq_div_mul]
  have hsplit : (2 : Nat) ^ 5 = 2 ^ start * 2 ^ (5 - start) := by rw [← Nat.pow_add]; congr 1; omega
  have hlen : (2 : Nat) ^ len ∣ 2 ^ (5 - start) := Nat.pow_dvd_pow 2 (by omega)
  show _ = w.toNat / 2 ^ 8 % 2 ^ 5 / 2 ^ start % 2 ^ len
  rw [hsplit, Nat.mod_mul_right_div_self, Nat.mod_mod_of_dvd _ hlen]

variable {ss : SideSet} {w d r : Word} {cycles value : UInt8}

/-- The shared field of a word that gets both qualifiers is their sum. -/
theorem toNat_shared_packed (hfit : ss.Fits) (hempty : shared w = 0)
    (hd : w.withDelay cycles ss = .ok d) (hr : d.withSide value ss = .ok r) :
    (shared r).toNat = cycles.toNat + ss.sideNumber value.toNat := by
  obtain ⟨hcycles, rfl⟩ := (withDelay_eq_ok_iff hfit).mp hd
  obtain ⟨hwidth, hvalue, rfl⟩ := (withSide_eq_ok_iff hfit).mp hr
  have hfits : ss.FitsSide (some value.toNat) := by
    rintro _ ⟨⟩
    exact ⟨hwidth, hvalue⟩
  have hpack := SideSet.ofNat_pack_side hfit hwidth hcycles value.toNat
  have hlt := SideSet.pack_lt hfit hcycles hfits
  rw [SideSet.pack_none] at hpack
  rw [shared_ofFields, shared_ofFields, hempty, BitVec.ofNat_eq_ofNat, BitVec.zero_or, hpack,
    BitVec.toNat_ofNat, Nat.mod_eq_of_lt hlt, SideSet.pack_some hwidth]

/-- Both numbers, and the enable bit if there is one, are read back from where they were written. -/
theorem read_packed (hfit : ss.Fits) (hempty : shared w = 0)
    (hd : w.withDelay cycles ss = .ok d) (hr : d.withSide value ss = .ok r) :
    (r.extractLsb' 8 ss.room).toNat = cycles.toNat ∧
      (r.extractLsb' (8 + ss.room) ss.width.toNat).toNat = value.toNat ∧
      (ss.optional = true → r.getLsbD 12 = true) := by
  have hfield := toNat_shared_packed hfit hempty hd hr
  obtain ⟨hcycles, -⟩ := (withDelay_eq_ok_iff hfit).mp hd
  obtain ⟨hwidth, hvalue, -⟩ := (withSide_eq_ok_iff hfit).mp hr
  have hnumber := SideSet.sideNumber_eq hfit hwidth value.toNat
  have hroom := hfit.room_add_width_le
  have hpos := Nat.two_pow_pos ss.room
  -- the field is `delay + 2 ^ room * (value + enable)`: remainder, quotient, and its top bit
  refine ⟨?_, ?_, ?_⟩
  · rw [show (8 : Nat) = 8 + 0 from rfl, toNat_extractLsb'_shared r 0 _ (by omega), hfield, hnumber,
      Nat.pow_zero, Nat.div_one, Nat.add_mul_mod_self_left, Nat.mod_eq_of_lt hcycles]
  · rw [toNat_extractLsb'_shared r ss.room _ hroom, hfield, hnumber, Nat.add_mul_div_left _ _ hpos,
      Nat.div_eq_of_lt hcycles, Nat.zero_add]
    split
    · rw [Nat.add_mod_right, Nat.mod_eq_of_lt hvalue]
    · rw [Nat.add_zero, Nat.mod_eq_of_lt hvalue]
  · intro ho
    have h16 : 16 ≤ (shared r).toNat := by
      rw [hfield, SideSet.sideNumber, if_pos ho]
      omega
    rw [← Bool.not_eq_false, getLsbD_twelve]
    omega

end Word

/-! ### The three writes together -/

namespace SideSet

/-- How a configuration packs delay and side-set value, next to the target of a jump. -/
structure Packs (ss : SideSet) : Prop where
  /-- Whether a delay is accepted does not depend on what the word holds already. -/
  delay_iff : ∃ bits, ss.bits = .ok bits ∧ ∀ (w : Word) (cycles : UInt8),
    (∃ w', w.withDelay cycles ss = .ok w') ↔ cycles.toNat < 2 ^ (5 - bits)
  side_iff : ∀ (w : Word) (value : UInt8),
    (∃ w', w.withSide value ss = .ok w') ↔ 0 < ss.width.toNat ∧ value.toNat < 2 ^ ss.width.toNat
  delay_outside : ∀ (w w' : Word) (cycles : UInt8),
    w.withDelay cycles ss = .ok w' → w.SameOutside w'
  side_outside : ∀ (w w' : Word) (value : UInt8),
    w.withSide value ss = .ok w' → w.SameOutside w'
  /-- Delay and value can be added in either order: both orders succeed, with the same word, or
  neither does. -/
  delay_side : ∀ (w r : Word) (cycles value : UInt8),
    (w.withDelay cycles ss >>= (Word.withSide · value ss)) = .ok r ↔
      (w.withSide value ss >>= (Word.withDelay · cycles ss)) = .ok r
  /-- The target of a jump can be filled in before or after the delay, whatever comes of the delay. -/
  delay_target : ∀ (w : Word) (cycles : UInt8) (target : Addr),
    (w.withTarget target).withDelay cycles ss = (w.withDelay cycles ss).map (·.withTarget target)
  side_target : ∀ (w : Word) (value : UInt8) (target : Addr),
    (w.withTarget target).withSide value ss = (w.withSide value ss).map (·.withTarget target)
  /-- In a word whose bits 12 to 8 were clear, the delay is read from the lowest of them, the value from
  those above it, and bit 12 says that there is a value where it could be missing. -/
  read_back : ∀ (w r : Word) (cycles value : UInt8),
    (∀ i, 8 ≤ i → i ≤ 12 → w.getLsbD i = false) →
    (w.withDelay cycles ss >>= (Word.withSide · value ss)) = .ok r →
    ∃ delayBits, ss.delayBits = .ok delayBits ∧
      (r.extractLsb' 8 delayBits).toNat = cycles.toNat ∧
      (r.extractLsb' (8 + delayBits) ss.width.toNat).toNat = value.toNat ∧
      (ss.optional = true → r.getLsbD 12 = true)

theorem fits_of_configure {width : UInt8} {optional pindirs : Bool} {ss : SideSet}
    (h : configure width optional pindirs = .ok ss) : ss.Fits := by
  rw [configure_eq] at h
  split at h
  · next hfit =>
    cases h
    exact hfit
  · cases h

/-- The bits that side-set takes are those that it does not leave over. -/
theorem Fits.exists_bits {ss : SideSet} (h : ss.Fits) :
    ∃ bits, ss.bits = .ok bits ∧ 5 - bits = ss.room := by
  have hdelay := h.delayBits_eq
  cases hbits : ss.bits with
  | error trap =>
    rw [delayBits, hbits] at hdelay
    cases hdelay
  | ok bits =>
    refine ⟨bits, rfl, ?_⟩
    rw [delayBits, hbits] at hdelay
    change Exact.sub 5 bits = .ok ss.room at hdelay
    rw [Exact.sub] at hdelay
    split at hdelay
    · exact Except.ok.inj hdelay
    · cases hdelay

/-- **Delay, side-set value and jump target never touch each other** in any configuration that is
accepted. -/
theorem packs_of_configure (width : UInt8) (optional pindirs : Bool) (ss : SideSet)
    (h : configure width optional pindirs = .ok ss) : ss.Packs := by
  have hfit := fits_of_configure h
  obtain ⟨bits, hbits, hroom⟩ := hfit.exists_bits
  exact {
    delay_iff := by
      refine ⟨bits, hbits, ?_⟩
      intro w cycles
      simp only [Word.withDelay_eq_ok_iff hfit, exists_and_left, exists_eq', and_true, hroom]
    side_iff := by
      intro w value
      simp only [Word.withSide_eq_ok_iff hfit, exists_and_left, exists_eq', and_true]
    delay_outside := by
      intro w w' cycles hw'
      obtain ⟨-, rfl⟩ := (Word.withDelay_eq_ok_iff hfit).mp hw'
      exact w.sameOutside_ofFields _
    side_outside := by
      intro w w' value hw'
      obtain ⟨-, -, rfl⟩ := (Word.withSide_eq_ok_iff hfit).mp hw'
      exact w.sameOutside_ofFields _
    delay_side := fun w r cycles value => Qualifier.apply_comm .delay .side w cycles value ss r
    delay_target := fun w cycles target => Qualifier.apply_withTarget .delay w cycles ss target
    side_target := fun w value target => Qualifier.apply_withTarget .side w value ss target
    read_back := by
      intro w r cycles value hclear hboth
      refine ⟨ss.room, hfit.delayBits_eq, ?_⟩
      have hempty : Word.shared w = 0 := by
        apply BitVec.eq_of_getLsbD_eq
        intro i hi
        rw [Word.shared, BitVec.getLsbD_extractLsb', hclear (8 + i) (by omega) (by omega)]
        simp
      -- both were accepted, so the delay was
      cases hd : w.withDelay cycles ss with
      | error failure =>
        rw [hd] at hboth
        cases hboth
      | ok d =>
        rw [hd] at hboth
        exact Word.read_packed hfit hempty hd hboth }

/-- Two optional side-set pins leave two bits for the delay. -/
theorem packs_two_optional_pins :
    configure 2 true false = .ok ⟨2, true, false⟩ ∧ Packs ⟨2, true, false⟩ :=
  ⟨rfl, packs_of_configure 2 true false _ rfl⟩

end SideSet

end PioAssembler
