import Mathlib.Tactic.Tauto
import PioAssembler.Proofs.Source

/-!
# What holds of every draft

`Draft.Consistent` collects what the steps of an assembly rely on without checking it: addresses fit
a byte, the last instruction exists, exactly the jumps are waiting and their address fields are still
zero, nothing lies behind the end, and a qualifier that was not given has left its bits alone.

Every step keeps it (`Draft.Consistent.step`), so it holds of every draft that a source leads to
(`Source.consistent_draft`), whichever of its statements were refused.
-/

namespace PioAssembler

/-- The bits of the shared field that are left for the delay. -/
def Word.delayBits (ss : SideSet) (w : Word) : Nat := w.shared.toNat % 2 ^ ss.room

/-- The bits of the shared field that side-set takes, the enable bit included. -/
def Word.sideBits (ss : SideSet) (w : Word) : Nat := w.shared.toNat / 2 ^ ss.room

/-- What holds of an instruction of a draft. -/
structure Slot.Consistent (ss : SideSet) (slot : Slot) : Prop where
  /-- A jump has no target yet. -/
  jump_low : slot.word.opcode = .jmp → slot.word.low = 0
  undelayed : slot.delayed = false → slot.word.delayBits ss = 0
  unsided : slot.sided = false → slot.word.sideBits ss = 0
  sided : slot.sided = true → ss.enabled = true

/-- What holds of a draft. -/
structure Draft.Consistent (d : Draft) : Prop where
  count_le : d.count ≤ capacity
  last_eq : d.last.map UInt8.toNat = if d.count = 0 then none else some (d.count - 1)
  /-- Exactly the jumps are waiting. -/
  waiting_iff : ∀ addr : Addr, (d.labels.awaited addr).isSome ↔
    ∃ slot, d.slots[addr.toNat]? = some slot ∧ slot.word.opcode = .jmp
  symbols_le : ∀ entry ∈ d.labels.symbols, entry.2.toNat ≤ d.count
  wrapTarget_le : ∀ addr ∈ d.wrapTarget, addr.toNat ≤ d.count
  wrap_lt : ∀ addr ∈ d.wrap, addr.toNat < d.count
  sideSet_fits : ∀ ss ∈ d.sideSet, ss.Fits
  slots : ∀ slot ∈ d.slots, slot.Consistent d.effectiveSideSet

/-! ### One instruction -/

namespace Slot.Consistent

/-- A new instruction has no qualifiers, and its word shows none. -/
theorem ofEncode {i : Instruction String} {word : Word} (h : i.encode = .ok word) (ss : SideSet) :
    Slot.Consistent ss { word } := by
  obtain ⟨hin, rfl⟩ := Instruction.encode_eq_ok_iff.mp h
  refine ⟨?_, ?_, ?_, ?_⟩
  · intro hjmp
    rw [Word.opcode_ofFields] at hjmp
    cases i with
    | jmp condition target => rw [Word.low_ofFields]; rfl
    | _ => cases hjmp
  · intro _
    simp [Word.delayBits]
  · intro _
    simp [Word.sideBits]
  · intro hsided
    cases hsided

/-- Adding a delay writes the delay bits alone. -/
theorem delay {ss : SideSet} (hfit : ss.Fits) {slot : Slot} (h : slot.Consistent ss)
    {cycles : UInt8} {word : Word} (hadd : slot.word.withDelay cycles ss = .ok word) :
    Slot.Consistent ss { slot with word, delayed := true } ∧ word.opcode = slot.word.opcode := by
  obtain ⟨hd, rfl⟩ := (Word.withDelay_eq_ok_iff hfit).mp hadd
  have hop : Word.opcode (Word.ofFields slot.word.group
      (slot.word.shared ||| BitVec.ofNat 5 cycles.toNat) slot.word.selector slot.word.low)
      = slot.word.opcode := by
    rw [Word.opcode, Word.opcode, Word.group_ofFields]
  refine ⟨⟨?_, ?_, ?_, h.sided⟩, hop⟩
  · intro hjmp
    rw [Word.low_ofFields]
    exact h.jump_low (hop ▸ hjmp)
  · intro hdelayed
    cases hdelayed
  · intro hsided
    -- both the old field and the delay stay below the side-set bits
    have hold : slot.word.shared.toNat < 2 ^ ss.room :=
      (Nat.div_eq_zero_iff_lt (Nat.two_pow_pos _)).mp (h.unsided hsided)
    have hor : slot.word.shared.toNat ||| cycles.toNat % 2 ^ 5 < 2 ^ ss.room :=
      Nat.or_lt_two_pow hold (Nat.lt_of_le_of_lt (Nat.mod_le _ _) hd)
    rw [Word.sideBits, Word.shared_ofFields, BitVec.toNat_or, BitVec.toNat_ofNat]
    exact Nat.div_eq_of_lt hor

/-- Adding a side-set value writes the side-set bits alone. -/
theorem side {ss : SideSet} (hfit : ss.Fits) {slot : Slot} (h : slot.Consistent ss)
    {value : UInt8} {word : Word} (hadd : slot.word.withSide value ss = .ok word) :
    Slot.Consistent ss { slot with word, sided := true } ∧ word.opcode = slot.word.opcode := by
  obtain ⟨h0, hv, rfl⟩ := (Word.withSide_eq_ok_iff hfit).mp hadd
  have hop : Word.opcode (Word.ofFields slot.word.group
      (slot.word.shared ||| BitVec.ofNat 5 (ss.sideNumber value.toNat)) slot.word.selector
      slot.word.low) = slot.word.opcode := by
    rw [Word.opcode, Word.opcode, Word.group_ofFields]
  refine ⟨⟨?_, ?_, ?_, fun _ => SideSet.enabled_iff.mpr h0⟩, hop⟩
  · intro hjmp
    rw [Word.low_ofFields]
    exact h.jump_low (hop ▸ hjmp)
  · intro hdelayed
    -- the value is a multiple of the weight of its lowest bit, and so is the old field
    have hside : ss.sideNumber value.toNat % 2 ^ 5 % 2 ^ ss.room = 0 := by
      rw [Nat.mod_mod_of_dvd _ (Nat.pow_dvd_pow 2 ss.room_le)]
      exact Nat.mod_eq_zero_of_dvd (SideSet.two_pow_room_dvd_sideNumber hfit h0 _)
    have hold : slot.word.shared.toNat % 2 ^ ss.room = 0 := h.undelayed hdelayed
    rw [Word.delayBits, Word.shared_ofFields, BitVec.toNat_or, BitVec.toNat_ofNat,
      Nat.or_mod_two_pow, hold, hside]
    rfl
  · intro hsided
    cases hsided

end Slot.Consistent

/-! ### Updates of a draft -/

namespace Draft

@[simp] theorem slots_await (d : Draft) (addr : Addr) (i : Instruction String) :
    (d.await addr i).slots = d.slots := by
  cases i <;> rfl

@[simp] theorem last_await (d : Draft) (addr : Addr) (i : Instruction String) :
    (d.await addr i).last = d.last := by
  cases i <;> rfl

@[simp] theorem sideSet_await (d : Draft) (addr : Addr) (i : Instruction String) :
    (d.await addr i).sideSet = d.sideSet := by
  cases i <;> rfl

@[simp] theorem wrapTarget_await (d : Draft) (addr : Addr) (i : Instruction String) :
    (d.await addr i).wrapTarget = d.wrapTarget := by
  cases i <;> rfl

@[simp] theorem wrap_await (d : Draft) (addr : Addr) (i : Instruction String) :
    (d.await addr i).wrap = d.wrap := by
  cases i <;> rfl

@[simp] theorem symbols_await (d : Draft) (addr : Addr) (i : Instruction String) :
    (d.await addr i).labels.symbols = d.labels.symbols := by
  cases i <;> rfl

/-- A jump waits for its label; all else waits as before. -/
theorem awaited_await (d : Draft) (addr : Addr) (i : Instruction String) (other : Addr) :
    (d.await addr i).labels.awaited other
      = (if other = addr then i.target? else none).or (d.labels.awaited other) := by
  cases i with
  | jmp condition label =>
    show (d.labels.await addr label).awaited other = _
    rw [Labels.awaited_await]
    split <;> rfl
  | _ =>
    show d.labels.awaited other = _
    split <;> rfl

theorem count_append (d : Draft) (word : Word) : (d.append word).count = d.count + 1 := by
  simp [count, append]

theorem count_replace (d : Draft) (addr : Addr) (slot : Slot) :
    (d.replace addr slot).count = d.count := by
  simp [count, replace]

end Draft

/-- Adding a label adds its entry and nothing else. -/
theorem SymbolTable.mem_insert {table : SymbolTable} {name : String} {addr : Addr}
    {entry : String × Addr} :
    entry ∈ table.insert name addr ↔ entry = (name, addr) ∨ entry ∈ table := by
  induction table with
  | nil => simp [insert]
  | cons first rest ih =>
    rw [insert]
    split
    · simp
    · rw [List.mem_cons, ih, List.mem_cons]
      tauto

/-- No number of instructions is too large for a byte. -/
theorem toNat_ofNat_of_le {n : Nat} (h : n ≤ capacity) : (UInt8.ofNat n).toNat = n := by
  have hn : n ≤ 32 := h
  rw [UInt8.toNat_ofNat']
  omega

/-! ### Every step keeps the invariant -/

namespace Draft.Consistent

variable {d : Draft}

theorem empty : Draft.Consistent {} where
  count_le := by decide
  last_eq := rfl
  waiting_iff := by intro addr; simp [Labels.awaited]
  symbols_le := by intro entry h; cases h
  wrapTarget_le := by intro addr h; cases h
  wrap_lt := by intro addr h; cases h
  sideSet_fits := by intro ss h; cases h
  slots := by intro slot h; cases h

/-- The next address is not cut short. -/
theorem toNat_nextAddr (h : d.Consistent) : d.nextAddr.toNat = d.count :=
  toNat_ofNat_of_le h.count_le

/-- The configuration fits, whether or not there was a directive. -/
theorem effectiveSideSet_fits (h : d.Consistent) : d.effectiveSideSet.Fits := by
  rw [effectiveSideSet]
  cases hs : d.sideSet with
  | none => exact SideSet.fits_default
  | some ss => exact h.sideSet_fits ss hs

/-- The instruction that qualifiers belong to is the last one. -/
theorem toNat_last (h : d.Consistent) {addr : Addr} (hl : d.last = some addr) :
    addr.toNat + 1 = d.count := by
  have hlast := h.last_eq
  rw [hl] at hlast
  split at hlast
  · cases hlast
  · next hne =>
    have : addr.toNat = d.count - 1 := Option.some.inj hlast
    omega

/-- What is added to a list as long as the draft has the next address. -/
theorem getElem?_concat (h : d.Consistent) {α : Type} {xs : List α} (hlen : xs.length = d.count)
    (x : α) (addr : Addr) :
    (xs ++ [x])[addr.toNat]? = if addr = d.nextAddr then some x else xs[addr.toNat]? := by
  by_cases he : addr = d.nextAddr
  · rw [if_pos he, he, h.toNat_nextAddr, ← hlen, List.getElem?_concat_length]
  · have hne : addr.toNat ≠ xs.length := by
      intro heq
      exact he (UInt8.toNat_inj.mp (by rw [heq, hlen, h.toNat_nextAddr]))
    rw [if_neg he]
    rcases Nat.lt_or_ge addr.toNat xs.length with hlt | hge
    · rw [List.getElem?_append_left hlt]
    · rw [List.getElem?_eq_none hge, List.getElem?_eq_none (by simp; omega)]

/-- A new instruction keeps the invariant: it fits, it is the last, and it waits exactly if it is
a jump. -/
theorem instruction (h : d.Consistent) {i : Instruction String} {word : Word}
    (encoded : i.encode = .ok word) (free : d.count < capacity) :
    ((d.append word).await d.nextAddr i).Consistent := by
  have hcount : ((d.append word).await d.nextAddr i).count = d.count + 1 := by
    rw [count, slots_await]
    exact d.count_append word
  have hnext := h.toNat_nextAddr
  have hop : word.opcode = .jmp ↔ i.target?.isSome := by
    obtain ⟨-, rfl⟩ := Instruction.encode_eq_ok_iff.mp encoded
    rw [Word.opcode_ofFields]
    cases i <;> simp [Instruction.opcode, Instruction.target?]
  refine ⟨by omega, ?_, ?_, ?_, ?_, ?_, ?_, ?_⟩
  · rw [hcount, last_await]
    show some d.nextAddr.toNat = _
    rw [hnext, if_neg (by omega)]
    rfl
  · intro addr
    rw [awaited_await, slots_await]
    show (Option.or _ (d.labels.awaited addr)).isSome ↔
      ∃ slot, (d.slots ++ [⟨word, false, false⟩])[addr.toNat]? = some slot ∧ _
    rw [Option.isSome_or, Bool.or_eq_true, h.waiting_iff addr, h.getElem?_concat rfl]
    -- only the new address starts to wait, and it does exactly if the new word is a jump
    by_cases he : addr = d.nextAddr
    · have hbehind : d.slots[addr.toNat]? = none := by
        rw [he, hnext]
        exact List.getElem?_eq_none (Nat.le_refl _)
      rw [if_pos he, if_pos he, hbehind]
      simp [hop]
    · rw [if_neg he, if_neg he]
      simp
  · rw [symbols_await, hcount]
    intro entry hentry
    exact Nat.le_succ_of_le (h.symbols_le entry hentry)
  · rw [wrapTarget_await, hcount]
    intro addr haddr
    exact Nat.le_succ_of_le (h.wrapTarget_le addr haddr)
  · rw [wrap_await, hcount]
    intro addr haddr
    exact Nat.lt_succ_of_lt (h.wrap_lt addr haddr)
  · rw [sideSet_await]
    exact h.sideSet_fits
  · rw [slots_await, effectiveSideSet, sideSet_await]
    intro slot hslot
    rcases List.mem_append.mp hslot with hold | hnew
    · exact h.slots slot hold
    · rw [List.mem_singleton.mp hnew]
      exact Slot.Consistent.ofEncode encoded _

/-- A qualifier changes one slot, and neither its group nor anything outside it. -/
theorem replace (h : d.Consistent) {addr : Addr} {slot slot' : Slot}
    (found : d.slots[addr.toNat]? = some slot)
    (hslot : slot'.Consistent d.effectiveSideSet ∧ slot'.word.opcode = slot.word.opcode) :
    (d.replace addr slot').Consistent := by
  have hcount := d.count_replace addr slot'
  refine ⟨?_, ?_, ?_, ?_, ?_, ?_, h.sideSet_fits, ?_⟩
  · rw [hcount]
    exact h.count_le
  · rw [hcount]
    exact h.last_eq
  · intro other
    show (d.labels.awaited other).isSome ↔ ∃ s, (d.slots.set addr.toNat slot')[other.toNat]? = some s ∧ _
    rw [h.waiting_iff other]
    -- the new word is a jump if the old one was, so what waits stays what it was
    by_cases he : addr.toNat = other.toNat
    · rw [← he, List.getElem?_set_self' , found]
      simp [hslot.2]
    · rw [List.getElem?_set_ne he]
  · rw [hcount]
    exact h.symbols_le
  · rw [hcount]
    exact h.wrapTarget_le
  · rw [hcount]
    exact h.wrap_lt
  · intro s hs
    rcases List.mem_or_eq_of_mem_set hs with hold | rfl
    · exact h.slots s hold
    · exact hslot.1

/-- **Every step keeps the invariant.** -/
theorem step {d' : Draft} {st : Statement} (h : d.Consistent) (hstep : d.Step st d') :
    d'.Consistent := by
  have hnext := h.toNat_nextAddr
  cases hstep with
  | instruction encoded free => exact h.instruction encoded free
  | label fresh =>
    refine { h with symbols_le := ?_ }
    intro entry hentry
    rcases SymbolTable.mem_insert.mp hentry with rfl | hold
    · exact Nat.le_of_eq hnext
    · exact h.symbols_le entry hold
  | wrapTarget =>
    refine { h with wrapTarget_le := ?_ }
    intro addr haddr
    cases haddr
    exact Nat.le_of_eq hnext
  | wrap nonempty =>
    refine { h with wrap_lt := ?_ }
    intro addr haddr
    cases haddr
    have hle : d.count ≤ capacity := h.count_le
    show (UInt8.ofNat (d.count - 1)).toNat < d.count
    rw [toNat_ofNat_of_le (by omega)]
    omega
  | sideSet fits first early =>
    -- the configuration changes for all words at once, but there are none yet
    have hnil : d.slots = [] := List.length_eq_zero_iff.mp early
    refine { h with sideSet_fits := ?_, slots := ?_ }
    · intro ss hss
      cases hss
      exact fits
    · intro slot hslot
      rw [show d.slots = [] from hnil] at hslot
      cases hslot
  | delay last found unused added =>
    exact h.replace found
      ((h.slots _ (List.mem_of_getElem? found)).delay h.effectiveSideSet_fits added)
  | side last found unused added =>
    exact h.replace found
      ((h.slots _ (List.mem_of_getElem? found)).side h.effectiveSideSet_fits added)

end Draft.Consistent

namespace Source

/-- Every draft that a source leads to satisfies the invariant. -/
theorem consistent_draft (source : Source) : source.draft.Consistent :=
  draft_induction .empty (fun h hstep => h.step hstep) source

/-- **The invariant holds after every source.** With it, no address is cut short by being kept in a
byte, the instruction that a qualifier belongs to is there, and the bits that `Word.delayBits` reads
are those that the configuration leaves over. -/
theorem draft_invariant (source : Source) :
    source.draft.Consistent ∧
      (∀ n ≤ source.draft.count, (UInt8.ofNat n).toNat = n) ∧
      (∀ addr ∈ source.draft.last, addr.toNat < source.draft.slots.length) ∧
      source.draft.effectiveSideSet.delayBits = .ok source.draft.effectiveSideSet.room := by
  have h := source.consistent_draft
  refine ⟨h, ?_, ?_, h.effectiveSideSet_fits.delayBits_eq⟩
  · intro n hn
    exact toNat_ofNat_of_le (Nat.le_trans hn h.count_le)
  · intro addr haddr
    have hlast := h.toNat_last haddr
    rw [Draft.count] at hlast
    omega

end Source

end PioAssembler
