import Mathlib.Tactic.IntervalCases
import PioAssembler.Isa.SideSet

/-!
# The shared field as a number

Delay and side-set value are OR-ed into the same five bits, in either order. For a configuration
that fits the field (`SideSet.Fits`) the two never touch each other, so the field is a *sum*:

    pack ss delay side = delay + enable flag + value * 2 ^ room

where `SideSet.room` is what side-set leaves for the delay.

* `withDelay_ofFields`, `withSide_ofFields`: what adding a qualifier does, as equations. They cover
  every outcome, and none of them traps.
* `ofNat_pack_delay`, `ofNat_pack_side`: OR-ing the later of the two qualifiers into the field is
  adding it to the number.
* `unpack_eq_some_iff`: the number gives both qualifiers back, and says whether there is a side-set
  value at all.
-/

namespace PioAssembler

namespace SideSet

/-- The width leaves room for the enable bit, if there is one. -/
def Fits (ss : SideSet) : Prop := ss.width.toNat ≤ widthLimit ss.optional

instance (ss : SideSet) : Decidable ss.Fits := inferInstanceAs (Decidable (_ ≤ _))

/-- Number of shared bits that are left for the delay. -/
def room (ss : SideSet) : Nat :=
  if ss.width.toNat = 0 then 5
  else if ss.optional then 4 - ss.width.toNat
  else 5 - ss.width.toNat

/-- What a side-set value adds to the shared field, the enable flag included. -/
def sideNumber (ss : SideSet) (value : Nat) : Nat :=
  if ss.optional then 16 + value * 2 ^ (4 - ss.width.toNat)
  else value * 2 ^ (5 - ss.width.toNat)

/-- The shared field of an instruction with the given delay and side-set value. -/
def pack (ss : SideSet) (delay : Nat) (side : Option Nat) : Nat :=
  if ss.width.toNat = 0 then delay
  else
    match side with
    | none => delay
    | some value =>
        if ss.optional then delay + 16 + value * 2 ^ (4 - ss.width.toNat)
        else delay + value * 2 ^ (5 - ss.width.toNat)

/-- The delay fits what side-set leaves over. -/
abbrev FitsDelay (ss : SideSet) (delay : Nat) : Prop := delay < 2 ^ ss.room

/-- A side-set value, if there is one, has a configured width that holds it. -/
def FitsSide (ss : SideSet) (side : Option Nat) : Prop :=
  ∀ value ∈ side, 0 < ss.width.toNat ∧ value < 2 ^ ss.width.toNat

/-! ### Configurations -/

theorem enabled_iff {ss : SideSet} : ss.enabled = true ↔ 0 < ss.width.toNat := by
  simp only [enabled, decide_eq_true_eq]
  exact UInt8.lt_iff_toNat_lt

theorem fits_default : Fits {} := by decide

/-- The directive accepts a configuration exactly if it fits. -/
theorem configure_eq (width : UInt8) (optional pindirs : Bool) :
    configure width optional pindirs =
      if Fits ⟨width, optional, pindirs⟩ then .ok ⟨width, optional, pindirs⟩
      else .error (.invalidOperand "side-set width" width.toNat 0 (widthLimit optional)) := by
  by_cases h : width.toNat ≤ widthLimit optional <;>
    simp [configure, checkRange, Fits, h, bind, Except.bind, pure, Except.pure]

theorem Fits.width_le {ss : SideSet} (h : ss.Fits) : ss.width.toNat ≤ 5 := by
  unfold Fits widthLimit sharedBits at h
  split at h <;> omega

/-- An optional side-set leaves a bit for its enable flag. -/
theorem Fits.width_le_of_optional {ss : SideSet} (h : ss.Fits) (ho : ss.optional = true) :
    ss.width.toNat ≤ 4 := by
  unfold Fits widthLimit sharedBits at h
  rw [if_pos ho] at h
  exact h

theorem room_le (ss : SideSet) : ss.room ≤ 5 := by
  unfold room
  split
  · exact Nat.le_refl 5
  · split <;> omega

/-- Where a configuration fits, the bits for the delay are counted without a trap. -/
theorem Fits.delayBits_eq {ss : SideSet} (h : ss.Fits) : ss.delayBits = .ok ss.room := by
  have hw : (ss.width = 0) ↔ ss.width.toNat = 0 := by simp [← UInt8.toNat_inj]
  have h5 := h.width_le
  -- a width of zero takes no bits, also where the enable bit is asked for
  by_cases h0 : ss.width.toNat = 0
  · simp [delayBits, bits, room, hw.mpr h0, Exact.sub, sharedBits, bind, Except.bind]
  · have hbits : ss.bits = .ok (ss.width.toNat + ss.optional.toNat) := by
      have := Bool.toNat_le ss.optional
      rw [bits, if_neg (mt hw.mp h0), Exact.add, if_pos (by omega)]
    have hle : ss.width.toNat + ss.optional.toNat ≤ 5 := by
      cases ho : ss.optional with
      | false => simpa using h5
      | true => exact Nat.succ_le_succ (h.width_le_of_optional ho)
    have hroom : 5 - (ss.width.toNat + ss.optional.toNat) = ss.room := by
      rw [room, if_neg h0]
      cases ss.optional with
      | false => rfl
      | true => simp only [if_true, Bool.toNat_true]; omega
    simp only [delayBits, hbits, bind, Except.bind]
    show Exact.sub 5 (ss.width.toNat + ss.optional.toNat) = _
    rw [Exact.sub, if_pos hle, hroom]

/-- The largest number of a few bits is one less than a power of two. -/
theorem largest_eq {n : Nat} (h : n ≤ 5) : largest n = .ok (2 ^ n - 1) := by
  interval_cases n <;> rfl

/-- Where a configuration fits, the longest delay has all the bits that are left. -/
theorem Fits.maxDelay_eq {ss : SideSet} (h : ss.Fits) : ss.maxDelay = .ok (2 ^ ss.room - 1) := by
  simp only [maxDelay, h.delayBits_eq, bind, Except.bind]
  exact largest_eq ss.room_le

/-- Where a configuration fits, the largest value has all its bits. -/
theorem Fits.maxValue_eq {ss : SideSet} (h : ss.Fits) :
    ss.maxValue = .ok (2 ^ ss.width.toNat - 1) :=
  largest_eq h.width_le

end SideSet

/-! ### Adding a qualifier to a word -/

namespace Word

/-- OR acts on each field by itself. -/
theorem or_ofFields (g g' : BitVec 3) (s s' : BitVec 5) (c c' : BitVec 3) (l l' : BitVec 5) :
    ofFields g s c l ||| ofFields g' s' c' l'
      = ofFields (g ||| g') (s ||| s') (c ||| c') (l ||| l') := by
  show (g ++ s ++ c ++ l ||| g' ++ s' ++ c' ++ l' : BitVec (3 + 5 + 3 + 5)) = _
  rw [BitVec.or_append, BitVec.or_append, BitVec.or_append, ofFields]

/-- A number that is moved up by eight places and more lands in the shared field. -/
theorem ofNat_shiftLeft (x k : Nat) (h : x * 2 ^ k < 32) :
    BitVec.ofNat 16 x <<< (8 + k) = ofFields 0 (BitVec.ofNat 5 (x * 2 ^ k)) 0 0 := by
  apply BitVec.eq_of_toNat_eq
  have hx : x ≤ x * 2 ^ k := Nat.le_mul_of_pos_right x (Nat.two_pow_pos k)
  have hmul : x * 2 ^ (8 + k) = x * 2 ^ k * 256 := by
    rw [Nat.pow_add, Nat.mul_comm (2 ^ 8), ← Nat.mul_assoc]
  rw [toNat_ofFields, BitVec.toNat_shiftLeft, BitVec.toNat_ofNat, BitVec.toNat_ofNat,
    Nat.shiftLeft_eq, Nat.mod_eq_of_lt (by omega : x < 2 ^ 16), hmul]
  have hz3 : (0 : BitVec 3).toNat = 0 := rfl
  have hz5 : (0 : BitVec 5).toNat = 0 := rfl
  omega

/-- **What adding a delay does**, in every case: it changes the shared field, or names the bound. -/
theorem withDelay_ofFields {ss : SideSet} (hfit : ss.Fits) (cycles : UInt8)
    (g : BitVec 3) (s : BitVec 5) (c : BitVec 3) (l : BitVec 5) :
    (ofFields g s c l).withDelay cycles ss =
      if ss.FitsDelay cycles.toNat then
        .ok (ofFields g (s ||| BitVec.ofNat 5 cycles.toNat) c l)
      else .error (.rejected (.invalidOperand "delay" cycles.toNat 0 (2 ^ ss.room - 1))) := by
  have hpos := Nat.two_pow_pos ss.room
  have hpow : 2 ^ ss.room ≤ 2 ^ 5 := Nat.pow_le_pow_right (by decide) ss.room_le
  by_cases hc : cycles.toNat < 2 ^ ss.room
  · have hrange : 0 ≤ cycles.toNat ∧ cycles.toNat ≤ 2 ^ ss.room - 1 := by omega
    have hfield := ofNat_shiftLeft cycles.toNat 0 (by omega)
    simp only [withDelay, hfit.maxDelay_eq, checkRange, if_pos hrange, if_pos hc, mapError_ok,
      bind, Except.bind, pure, Except.pure]
    rw [hfield, or_ofFields]
    simp
  · have hrange : ¬ (0 ≤ cycles.toNat ∧ cycles.toNat ≤ 2 ^ ss.room - 1) := by omega
    simp only [withDelay, hfit.maxDelay_eq, checkRange, if_neg hrange, if_neg hc, mapError_ok,
      mapError_error, bind, Except.bind]

/-- A value that fits its width leaves the bits below it free. -/
theorem value_mul_add_le {value width : Nat} (hv : value < 2 ^ width) {bits : Nat}
    (hw : width ≤ bits) : value * 2 ^ (bits - width) + 2 ^ (bits - width) ≤ 2 ^ bits := by
  calc value * 2 ^ (bits - width) + 2 ^ (bits - width)
      = (value + 1) * 2 ^ (bits - width) := (Nat.succ_mul _ _).symm
    _ ≤ 2 ^ width * 2 ^ (bits - width) := Nat.mul_le_mul_right _ hv
    _ = 2 ^ bits := by rw [← Nat.pow_add, Nat.add_sub_cancel' hw]

/-- A value that fits its width fits the field when it is moved to its top. -/
theorem value_mul_lt {value width : Nat} (hv : value < 2 ^ width) {bits : Nat} (hw : width ≤ bits) :
    value * 2 ^ (bits - width) < 2 ^ bits := by
  have := value_mul_add_le hv hw
  have := Nat.two_pow_pos (bits - width)
  omega

/-- **What adding a side-set value does**, in every case. -/
theorem withSide_ofFields {ss : SideSet} (hfit : ss.Fits) (value : UInt8)
    (g : BitVec 3) (s : BitVec 5) (c : BitVec 3) (l : BitVec 5) :
    (ofFields g s c l).withSide value ss =
      if ss.width.toNat = 0 then
        .error (.rejected (.misconfiguredSideSet "side value used without a side_set directive"))
      else if value.toNat < 2 ^ ss.width.toNat then
        .ok (ofFields g (s ||| BitVec.ofNat 5 (ss.sideNumber value.toNat)) c l)
      else
        .error (.rejected
          (.invalidOperand "side-set value" value.toNat 0 (2 ^ ss.width.toNat - 1))) := by
  have hpos := Nat.two_pow_pos ss.width.toNat
  by_cases h0 : ss.width.toNat = 0
  · have hoff : ss.enabled = false := by
      rw [Bool.eq_false_iff, Ne, SideSet.enabled_iff]
      omega
    simp [withSide, hoff, h0, bind, Except.bind, throw, throwThe, MonadExceptOf.throw]
  · have hon : ss.enabled = true := SideSet.enabled_iff.mpr (by omega)
    by_cases hv : value.toNat < 2 ^ ss.width.toNat
    · have hrange : 0 ≤ value.toNat ∧ value.toNat ≤ 2 ^ ss.width.toNat - 1 := by omega
      simp only [withSide, hon, hfit.maxValue_eq, checkRange, if_pos hrange, if_neg h0, if_pos hv,
        mapError_ok, bind, Except.bind, pure, Except.pure, if_true, SideSet.sideNumber]
      cases ho : ss.optional with
      | true =>
        have h4 := hfit.width_le_of_optional ho
        have hplaces : 12 - ss.width.toNat = 8 + (4 - ss.width.toNat) := by omega
        have henable : sideEnable = ofFields 0 16 0 0 := by decide
        have hlt := value_mul_lt hv h4
        rw [if_pos rfl, if_pos rfl, Exact.sub, if_pos (by omega)]
        simp only [hplaces, mapError_ok]
        rw [ofNat_shiftLeft _ _ (by omega), henable, or_ofFields, or_ofFields]
        -- the enable bit stands above the value, so adding it is setting it
        have hsum := Nat.two_pow_add_eq_or_of_lt hlt 1
        rw [Nat.mul_one] at hsum
        simp [hsum, BitVec.or_assoc]
      | false =>
        have h5 := hfit.width_le
        have hplaces : 13 - ss.width.toNat = 8 + (5 - ss.width.toNat) := by omega
        have hlt := value_mul_lt hv h5
        rw [if_neg (by decide), if_neg (by decide), Exact.sub, if_pos (by omega)]
        simp only [hplaces, mapError_ok]
        rw [ofNat_shiftLeft _ _ (by omega), or_ofFields]
        simp
    · have hrange : ¬ (0 ≤ value.toNat ∧ value.toNat ≤ 2 ^ ss.width.toNat - 1) := by omega
      simp only [withSide, hon, hfit.maxValue_eq, checkRange, if_neg hrange, if_neg h0, if_neg hv,
        mapError_ok, mapError_error, bind, Except.bind, if_true]

/-- A delay is accepted exactly if it fits, and changes the shared field alone. -/
theorem withDelay_eq_ok_iff {ss : SideSet} (hfit : ss.Fits) {w w' : Word} {cycles : UInt8} :
    w.withDelay cycles ss = .ok w' ↔
      ss.FitsDelay cycles.toNat ∧
        ofFields (group w) (shared w ||| BitVec.ofNat 5 cycles.toNat) (selector w) (low w) = w' := by
  rw [← ofFields_fields w, withDelay_ofFields hfit, ofFields_fields w]
  split
  · next hd => simp [hd]
  · next hd => simp [hd]

/-- A side-set value is accepted exactly if there is a side-set that is wide enough, and changes the
shared field alone. -/
theorem withSide_eq_ok_iff {ss : SideSet} (hfit : ss.Fits) {w w' : Word} {value : UInt8} :
    w.withSide value ss = .ok w' ↔
      0 < ss.width.toNat ∧ value.toNat < 2 ^ ss.width.toNat ∧
        ofFields (group w) (shared w ||| BitVec.ofNat 5 (ss.sideNumber value.toNat)) (selector w)
          (low w) = w' := by
  rw [← ofFields_fields w, withSide_ofFields hfit, ofFields_fields w]
  split
  · next h0 => simp [h0]
  · next h0 =>
    have hpos : 0 < ss.width.toNat := Nat.pos_of_ne_zero h0
    split
    · next hv => simp [hpos, hv]
    · next hv => simp [hv]

end Word

/-! ### The field is a sum -/

namespace SideSet

theorem pack_none (ss : SideSet) (delay : Nat) : ss.pack delay none = delay := by
  unfold pack
  split <;> rfl

/-- The field is the delay and what the side-set value adds to it. -/
theorem pack_some {ss : SideSet} (h0 : 0 < ss.width.toNat) (delay value : Nat) :
    ss.pack delay (some value) = delay + ss.sideNumber value := by
  simp only [pack, sideNumber, if_neg (Nat.ne_of_gt h0)]
  split <;> omega

/-- A side-set value starts above the delay. -/
theorem two_pow_room_dvd_sideNumber {ss : SideSet} (hfit : ss.Fits) (h0 : 0 < ss.width.toNat)
    (value : Nat) : 2 ^ ss.room ∣ ss.sideNumber value := by
  unfold room sideNumber
  rw [if_neg (Nat.ne_of_gt h0)]
  split
  · next ho =>
    have h4 := hfit.width_le_of_optional ho
    have h16 : 2 ^ (4 - ss.width.toNat) ∣ 16 := Nat.pow_dvd_pow 2 (Nat.sub_le 4 ss.width.toNat)
    exact Nat.dvd_add h16 (Nat.dvd_mul_left _ _)
  · exact Nat.dvd_mul_left _ _

/-- OR-ing a delay under a side-set value is adding it. -/
theorem sideNumber_or {ss : SideSet} (hfit : ss.Fits) (h0 : 0 < ss.width.toNat) {delay : Nat}
    (hd : ss.FitsDelay delay) (value : Nat) :
    ss.sideNumber value ||| delay = delay + ss.sideNumber value := by
  obtain ⟨k, hk⟩ := two_pow_room_dvd_sideNumber hfit h0 value
  rw [hk, ← Nat.two_pow_add_eq_or_of_lt hd k, Nat.add_comm]

/-- Adding a delay to a field that may already hold a side-set value. -/
theorem ofNat_pack_delay {ss : SideSet} (hfit : ss.Fits) {delay : Nat} (hd : ss.FitsDelay delay)
    (side : Option Nat) :
    BitVec.ofNat 5 (ss.pack 0 side) ||| BitVec.ofNat 5 delay = BitVec.ofNat 5 (ss.pack delay side) := by
  cases side with
  | none => simp [pack_none]
  | some value =>
    by_cases h0 : ss.width.toNat = 0
    · simp [pack, h0]
    · have hpos : 0 < ss.width.toNat := by omega
      rw [pack_some hpos, pack_some hpos, Nat.zero_add, ← BitVec.ofNat_or,
        sideNumber_or hfit hpos hd]

/-- Adding a side-set value to a field that may already hold a delay. -/
theorem ofNat_pack_side {ss : SideSet} (hfit : ss.Fits) (h0 : 0 < ss.width.toNat) {delay : Nat}
    (hd : ss.FitsDelay delay) (value : Nat) :
    BitVec.ofNat 5 (ss.pack delay none) ||| BitVec.ofNat 5 (ss.sideNumber value)
      = BitVec.ofNat 5 (ss.pack delay (some value)) := by
  rw [pack_none, pack_some h0, BitVec.or_comm, ← BitVec.ofNat_or, sideNumber_or hfit h0 hd]

/-! ### Reading the field -/

/-- The delay and the side-set value of a field; nothing if the field has value bits under a clear
enable flag, which no qualifier writes. -/
def unpack (ss : SideSet) (field : Nat) : Option (Nat × Option Nat) :=
  if ss.width.toNat = 0 then some (field, none)
  else if ss.optional then
    if 16 ≤ field then some (field % 2 ^ ss.room, some ((field - 16) / 2 ^ ss.room))
    else if field < 2 ^ ss.room then some (field, none)
    else none
  else some (field % 2 ^ ss.room, some (field / 2 ^ ss.room))

/-- A side-set value may be missing, unless it is mandatory. -/
def MayOmit (ss : SideSet) : Prop := ss.width.toNat = 0 ∨ ss.optional = true

/-- A field is read in exactly one way, and every field that can be written is read back. -/
theorem unpack_eq_some_iff {ss : SideSet} (hfit : ss.Fits) {field : Nat} (hf : field < 32)
    {delay : Nat} {side : Option Nat} :
    ss.unpack field = some (delay, side) ↔
      ss.pack delay side = field ∧ ss.FitsDelay delay ∧ ss.FitsSide side ∧
        (side = none → ss.MayOmit) := by
  have h5 := hfit.width_le
  have h4 := hfit.width_le_of_optional
  -- with the width a numeral all the powers are numerals, and the rest is linear
  unfold unpack pack FitsDelay FitsSide MayOmit room
  generalize ss.width.toNat = w at h5 h4
  cases ho : ss.optional with
  | false => interval_cases w <;> cases side <;> simp <;> omega
  | true =>
    replace h4 := h4 ho
    by_cases h16 : 16 ≤ field
    · interval_cases w <;> cases side <;> simp [h16] <;> omega
    · interval_cases w <;> cases side <;> simp [h16] <;> omega

/-- Qualifiers that fit make a number that fits the field. -/
theorem pack_lt {ss : SideSet} (hfit : ss.Fits) {delay : Nat} {side : Option Nat}
    (hd : ss.FitsDelay delay) (hs : ss.FitsSide side) : ss.pack delay side < 32 := by
  cases side with
  | none =>
    rw [pack_none]
    exact Nat.lt_of_lt_of_le hd (Nat.pow_le_pow_right (by decide) ss.room_le)
  | some value =>
    obtain ⟨h0, hv⟩ := hs value rfl
    rw [pack_some h0, sideNumber]
    rw [FitsDelay, room, if_neg (Nat.ne_of_gt h0)] at hd
    split at hd
    · next ho =>
      have hle := Word.value_mul_add_le hv (hfit.width_le_of_optional ho)
      rw [if_pos ho]
      omega
    · next ho =>
      have hle := Word.value_mul_add_le hv hfit.width_le
      rw [if_neg ho]
      omega

end SideSet

end PioAssembler
