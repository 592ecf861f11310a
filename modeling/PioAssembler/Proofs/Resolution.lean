import Mathlib.Data.List.Forall2
import PioAssembler.Proofs.Image
import PioAssembler.Proofs.SymbolOrder

/-!
# Resolution by history

What `Labels.resolve` does to a list of words, of any length and after any calls, is read off the calls
alone:

* `Labels.Call.awaited?`: the label that was last given for an address, of the calls since the last
  resolution,
* `Labels.Call.defined?`: the address in the first definition of a label.

`Labels.ResolvedBy` lists what then holds of the words, of the complaints and of the labels afterwards,
and `Labels.resolve_by_history` says that it does. A position is known by its lowest eight bits only, and
of a target the lowest five are written.
-/

namespace PioAssembler

/-! ### Listed in order -/

/-- The items are those that a relation gives to positions, in the order of the positions. -/
def ListedBy {β : Type} (R : Nat → β → Prop) (items : List β) : Prop :=
  ∃ positions : List Nat, positions.Pairwise (· < ·) ∧
    (∀ position, position ∈ positions ↔ ∃ item, R position item) ∧ List.Forall₂ R positions items

theorem ListedBy.congr {β : Type} {R S : Nat → β → Prop} {items : List β} (h : ListedBy R items)
    (hiff : ∀ position item, R position item ↔ S position item) : ListedBy S items := by
  obtain rfl : R = S := by
    funext position item
    exact propext (hiff position item)
  exact h

/-- Nothing is listed exactly if no position has an item. -/
theorem ListedBy.eq_nil_iff {β : Type} {R : Nat → β → Prop} {items : List β} (h : ListedBy R items) :
    items = [] ↔ ∀ position item, ¬ R position item := by
  obtain ⟨positions, -, hall, hlisted⟩ := h
  constructor
  · rintro rfl position item hitem
    cases hlisted
    exact List.not_mem_nil ((hall position).mpr ⟨item, hitem⟩)
  · intro hnone
    cases hlisted with
    | nil => rfl
    | cons hitem => exact absurd hitem (hnone _ _)

/-- What is picked out of a list is listed by the positions it is picked from. -/
theorem listedBy_filterMap {α β : Type} (f : α → Option β) (xs : List α) :
    ListedBy (fun position item => ∃ x, xs[position]? = some x ∧ f x = some item) (xs.filterMap f) := by
  induction xs using List.reverseRecOn with
  | nil =>
    refine ⟨[], .nil, ?_, .nil⟩
    intro position
    simp
  | append_singleton xs x ih =>
    -- what the longer list gives is what the shorter one gives, and the last item at the last position
    have hlast : ∀ position item, (∃ y, (xs ++ [x])[position]? = some y ∧ f y = some item) ↔
        (∃ y, xs[position]? = some y ∧ f y = some item) ∨
          (position = xs.length ∧ f x = some item) := by
      intro position item
      rcases Nat.lt_trichotomy position xs.length with hlt | rfl | hgt
      · rw [List.getElem?_append_left hlt]
        simp [Nat.ne_of_lt hlt]
      · simp
      · rw [List.getElem?_eq_none (by simp; omega), List.getElem?_eq_none (by omega)]
        simp [Nat.ne_of_gt hgt]
    cases hf : f x with
    | none =>
      rw [List.filterMap_append, List.filterMap_cons_none hf, List.filterMap_nil, List.append_nil]
      refine ih.congr ?_
      intro position item
      rw [hlast, hf]
      simp
    | some last =>
      obtain ⟨positions, hincreasing, hall, hlisted⟩ := ih
      rw [List.filterMap_append, List.filterMap_cons_some hf, List.filterMap_nil]
      refine ⟨positions ++ [xs.length], ?_, ?_, ?_⟩
      · refine List.pairwise_append.mpr ⟨hincreasing, List.pairwise_singleton _ _, ?_⟩
        intro position hposition other hother
        obtain ⟨item, y, hy, -⟩ := (hall position).mp hposition
        rw [List.mem_singleton.mp hother]
        exact (List.getElem?_eq_some_iff.mp hy).1
      · intro position
        simp only [List.mem_append, List.mem_singleton, hall, hlast, hf, exists_or]
        simp
      · refine List.rel_append (hlisted.imp ?_) (.cons ?_ .nil)
        · intro position item hitem
          exact (hlast position item).mpr (.inl hitem)
        · exact (hlast _ _).mpr (.inr ⟨rfl, hf⟩)

namespace Labels

/-! ### Fates -/

/-- The fates of some words, in their order. -/
def fates (labels : Labels) (words : List Word) : List Fate :=
  words.mapIdx fun position w => labels.fate words.length w position

theorem getElem?_fates (labels : Labels) (words : List Word) (position : Nat) :
    (labels.fates words)[position]?
      = words[position]?.map fun w => labels.fate words.length w position :=
  List.getElem?_mapIdx

/-- The events of a resolution are those of the fates, in the order of the words. -/
theorem events_resolve (labels : Labels) (words : List Word) :
    (labels.resolve words).events = (labels.fates words).filterMap Fate.event? := by
  simp only [resolve, fates, List.mapIdx_eq_zipIdx_map, List.filterMap_map]
  rfl

/-- The complaints of a resolution are those of the fates, in the order of the words. -/
theorem badJumps_resolve (labels : Labels) (words : List Word) :
    (labels.resolve words).badJumps = (labels.fates words).filterMap Fate.badJump? := by
  simp only [resolve, fates, List.mapIdx_eq_zipIdx_map, List.filterMap_map]
  rfl

/-- What is made of the fates of some words is made of the fate of one. -/
theorem mem_filterMap_fates {β : Type} {g : Fate → Option β} {labels : Labels} {words : List Word}
    {item : β} :
    item ∈ (labels.fates words).filterMap g ↔
      ∃ position w, words[position]? = some w ∧
        g (labels.fate words.length w position) = some item := by
  rw [List.mem_filterMap]
  constructor
  · rintro ⟨fate, hfate, hitem⟩
    obtain ⟨position, hposition⟩ := List.mem_iff_getElem?.mp hfate
    rw [getElem?_fates] at hposition
    obtain ⟨w, hw, rfl⟩ := Option.map_eq_some_iff.mp hposition
    exact ⟨position, w, hw, hitem⟩
  · rintro ⟨position, w, hw, hitem⟩
    refine ⟨_, List.mem_of_getElem? (i := position) ?_, hitem⟩
    rw [getElem?_fates, hw, Option.map_some]

/-- What is made of the fates stands in the order of the words, as long as addresses tell them apart. -/
theorem pairwise_filterMap_fates {β : Type} {g : Fate → Option β} {addr : β → Addr} {labels : Labels}
    {words : List Word} (h : words.length ≤ 256)
    (haddr : ∀ (w : Word) (position : Nat) (item : β),
      g (labels.fate words.length w position) = some item → addr item = UInt8.ofNat position) :
    ((labels.fates words).filterMap g).Pairwise fun a b => addr a < addr b := by
  rw [fates, List.pairwise_filterMap, List.pairwise_iff_getElem]
  intro i j hi hj hij a ha b hb
  rw [List.getElem_mapIdx] at ha hb
  rw [List.length_mapIdx] at hj
  rw [haddr _ _ _ ha, haddr _ _ _ hb, UInt8.lt_iff_toNat_lt, UInt8.toNat_ofNat',
    UInt8.toNat_ofNat', Nat.mod_eq_of_lt (by omega), Nat.mod_eq_of_lt (by omega)]
  exact hij

/-! ### Calls -/

/-- What can be asked of labels. -/
inductive Call where
  | define (name : String) (addr : Addr)
  | await (addr : Addr) (name : String)
  | lookup (name : String)
  | resolve (words : List Word)
  deriving DecidableEq, Repr

/-- The labels after a call, whether or not it succeeded. -/
def perform (labels : Labels) : Call → Labels
  | .define name addr => labels.mark name addr
  | .await addr name => labels.await addr name
  | .lookup _ => labels
  | .resolve words => (labels.resolve words).labels

/-- The labels after some calls. -/
def after (calls : List Call) : Labels := calls.foldl perform {}

namespace Call

/-- The label that a call gives for an address. -/
def awaits? (addr : Addr) : Call → Option String
  | .await other name => if addr = other then some name else none
  | _ => none

/-- The address that a call gives to a label. -/
def defines? (name : String) : Call → Option Addr
  | .define other addr => if name = other then some addr else none
  | _ => none

def isResolve : Call → Bool
  | .resolve _ => true
  | _ => false

/-- The label in the last call that gives one for the address, of the calls since the last resolution. -/
def awaited? (calls : List Call) (addr : Addr) : Option String :=
  (calls.rtakeWhile fun call => !call.isResolve).reverse.findSome? (awaits? addr)

/-- The address in the first definition of the label. -/
def defined? (calls : List Call) (name : String) : Option Addr := calls.findSome? (defines? name)

/-- A resolution ends all waiting, and a later label for an address goes before an earlier one. -/
theorem awaited?_concat (calls : List Call) (call : Call) (addr : Addr) :
    awaited? (calls ++ [call]) addr
      = if call.isResolve then none else (call.awaits? addr).or (awaited? calls addr) := by
  rw [awaited?, List.rtakeWhile_concat]
  cases call.isResolve with
  | true => rfl
  | false =>
    simp only [Bool.not_false, if_true, List.reverse_concat, List.findSome?_cons]
    cases call.awaits? addr <;> rfl

/-- A call can define a label only if no call before it did. -/
theorem defined?_concat (calls : List Call) (call : Call) (name : String) :
    defined? (calls ++ [call]) name = (defined? calls name).or (call.defines? name) := by
  rw [defined?, List.findSome?_append, List.findSome?_singleton]
  rfl

end Call

theorem after_concat (calls : List Call) (call : Call) :
    after (calls ++ [call]) = (after calls).perform call := List.foldl_concat ..

/-- The jumps that wait are read off the calls since the last resolution. -/
theorem awaited_after (calls : List Call) (addr : Addr) :
    (after calls).awaited addr = Call.awaited? calls addr := by
  induction calls using List.reverseRecOn with
  | nil => rfl
  | append_singleton calls call ih =>
    rw [after_concat, Call.awaited?_concat]
    cases call with
    | define name other =>
      show ((after calls).mark name other).awaited addr = _
      rw [awaited, waiting_mark]
      exact ih
    | await other name =>
      show ((after calls).await other name).awaited addr = Option.or (if addr = other then _ else _) _
      rw [awaited_await, ← ih]
      split <;> rfl
    | lookup name => exact ih
    | resolve words => rfl

/-- A label is found at the address of its first definition. -/
theorem lookup_after (calls : List Call) (name : String) :
    (after calls).lookup name = Call.defined? calls name := by
  induction calls using List.reverseRecOn with
  | nil => rfl
  | append_singleton calls call ih =>
    rw [after_concat, Call.defined?_concat, ← ih]
    cases call with
    | define other addr =>
      exact lookup_mark _ other addr name
    | await addr other => exact (Option.or_none ..).symm
    | lookup other => exact (Option.or_none ..).symm
    | resolve words => exact (Option.or_none ..).symm

/-! ### What follows from the calls -/

/-- The word at a position is a jump, and a label was given for its address. Addresses have eight
bits. -/
structure NamesLabel (calls : List Call) (words : List Word) (position : Nat) (addr : Addr)
    (label : String) : Prop where
  jump : ∃ w, words[position]? = some w ∧ w.opcode = .jmp
  addr_eq : addr.toNat = position % 256
  awaited : Call.awaited? calls addr = some label

/-- The jump at a position has a target among the words. -/
structure HasTarget (calls : List Call) (words : List Word) (position : Nat) (target : Addr) :
    Prop where
  names : ∃ addr label, NamesLabel calls words position addr label ∧
    Call.defined? calls label = some target
  inside : target.toNat < words.length

/-- The jump at a position goes astray: its label is not defined, or it stands behind the words. -/
inductive GoesAstray (calls : List Call) (words : List Word) (position : Nat) : BadJump → Prop where
  | undefined {addr : Addr} {label : String} (names : NamesLabel calls words position addr label)
      (never : Call.defined? calls label = none) :
      GoesAstray calls words position ⟨addr, label, .undefined⟩
  | pastEnd {addr target : Addr} {label : String}
      (names : NamesLabel calls words position addr label)
      (defined : Call.defined? calls label = some target) (behind : words.length ≤ target.toNat) :
      GoesAstray calls words position ⟨addr, label, .pastEnd target⟩

/-- What holds of a resolution after some calls. -/
structure ResolvedBy (calls : List Call) (words : List Word) (r : Resolution) : Prop where
  /-- The lowest five bits of the target are OR-ed into the word. -/
  filled : ∀ position w target, words[position]? = some w → HasTarget calls words position target →
    r.words[position]? = some (w ||| BitVec.ofNat 16 (target.toNat % 32))
  kept : ∀ position, (∀ target, ¬ HasTarget calls words position target) →
    r.words[position]? = words[position]?
  fails_iff : (∃ jumps, r.check = .error (.unresolvedLabels jumps)) ↔
    ∃ position jump, GoesAstray calls words position jump
  listed : ∀ jumps, r.check = .error (.unresolvedLabels jumps) →
    ListedBy (GoesAstray calls words) jumps
  succeeds_iff : r.check = .ok () ↔ ∀ position jump, ¬ GoesAstray calls words position jump
  symbols : r.labels.symbols = (after calls).symbols
  lookup : ∀ name, r.labels.lookup name = Call.defined? calls name
  /-- Nothing waits any more, so a second resolution has nothing to do. -/
  done : ∀ words', (r.labels.resolve words').check = .ok () ∧
    (r.labels.resolve words').words = words' ∧ (r.labels.resolve words').labels = r.labels

variable {calls : List Call} {words : List Word} {position : Nat}

/-- That a jump names a label can be seen from the labels as they are, without the calls. -/
theorem namesLabel_iff {addr : Addr} {label : String} :
    NamesLabel calls words position addr label ↔
      addr = UInt8.ofNat position ∧ (after calls).awaited addr = some label ∧
        ∃ w, words[position]? = some w ∧ w.opcode = .jmp := by
  have haddr : addr.toNat = position % 256 ↔ addr = UInt8.ofNat position := by
    rw [← UInt8.toNat_inj, UInt8.toNat_ofNat']
  rw [awaited_after]
  constructor
  · rintro ⟨jump, addr_eq, awaited⟩
    exact ⟨haddr.mp addr_eq, awaited, jump⟩
  · rintro ⟨haddr_eq, awaited, jump⟩
    exact ⟨jump, haddr.mpr haddr_eq, awaited⟩

/-- A jump has a target exactly if the fate of its word is to be given this target. -/
theorem hasTarget_iff {target : Addr} :
    HasTarget calls words position target ↔
      ∃ w addr label, words[position]? = some w ∧
        (after calls).fate words.length w position = .bound addr label target := by
  constructor
  · rintro ⟨⟨addr, label, names, defined⟩, inside⟩
    obtain ⟨rfl, hawaited, w, hw, hjmp⟩ := namesLabel_iff.mp names
    rw [← lookup_after] at defined
    exact ⟨w, UInt8.ofNat position, label, hw, by simp [fate, hjmp, hawaited, defined, inside]⟩
  · rintro ⟨w, addr, label, hw, hfate⟩
    revert hfate
    fun_cases fate (after calls) words.length w position with
    | case3 _ hjmp name hname target' htarget hlt =>
      intro hfate
      obtain ⟨-, rfl, rfl⟩ := Fate.bound.inj hfate
      rw [lookup_after] at htarget
      exact ⟨⟨_, _, namesLabel_iff.mpr ⟨rfl, hname, w, hw, hjmp⟩, htarget⟩, hlt⟩
    | case1 | case2 | case4 | case5 => intro hfate; cases hfate

/-- A jump goes astray exactly if the fate of its word is a complaint about it. -/
theorem goesAstray_iff {jump : BadJump} :
    GoesAstray calls words position jump ↔
      ∃ w, words[position]? = some w ∧
        ((after calls).fate words.length w position).badJump? = some jump := by
  constructor
  · intro h
    cases h with
    | undefined names never =>
      obtain ⟨rfl, hawaited, w, hw, hjmp⟩ := namesLabel_iff.mp names
      rw [← lookup_after] at never
      exact ⟨w, hw, by simp [fate, hjmp, hawaited, never, Fate.badJump?]⟩
    | pastEnd names defined behind =>
      obtain ⟨rfl, hawaited, w, hw, hjmp⟩ := namesLabel_iff.mp names
      rw [← lookup_after] at defined
      exact ⟨w, hw, by simp [fate, hjmp, hawaited, defined, Nat.not_lt.mpr behind, Fate.badJump?]⟩
  · rintro ⟨w, hw, hjump⟩
    revert hjump
    -- two of the five fates are complaints
    fun_cases fate (after calls) words.length w position with
    | case2 _ hjmp name hname hnone =>
      intro hjump
      cases hjump
      rw [lookup_after] at hnone
      exact .undefined (namesLabel_iff.mpr ⟨rfl, hname, w, hw, hjmp⟩) hnone
    | case4 _ hjmp name hname target htarget hge =>
      intro hjump
      cases hjump
      rw [lookup_after] at htarget
      exact .pastEnd (namesLabel_iff.mpr ⟨rfl, hname, w, hw, hjmp⟩) htarget (Nat.not_lt.mp hge)
    | case1 | case3 | case5 => intro hjump; cases hjump

/-- The complaints are about the jumps that go astray, one for each and in their order. -/
theorem listedBy_badJumps (calls : List Call) (words : List Word) :
    ListedBy (GoesAstray calls words) ((after calls).resolve words).badJumps := by
  rw [badJumps_resolve]
  refine (listedBy_filterMap Fate.badJump? _).congr ?_
  intro position jump
  rw [goesAstray_iff, getElem?_fates]
  simp

/-- A resolution fails with all its complaints, and succeeds if there are none. -/
theorem check_resolve (labels : Labels) (words : List Word) :
    (labels.resolve words).check =
      if (labels.resolve words).badJumps = [] then .ok ()
      else .error (.unresolvedLabels (labels.resolve words).badJumps) := by
  rw [Resolution.check]
  simp only [List.isEmpty_iff]

/-- There is no complaint exactly if no jump goes astray. -/
theorem badJumps_resolve_eq_nil_iff :
    ((after calls).resolve words).badJumps = [] ↔
      ∀ position jump, ¬ GoesAstray calls words position jump :=
  (listedBy_badJumps calls words).eq_nil_iff

/-- Labels that no jump waits for leave all words as they are. -/
theorem fate_of_idle {labels : Labels} (h : labels.waiting = []) (count : Nat) (w : Word)
    (position : Nat) : labels.fate count w position = .kept := by
  simp [fate, awaited, h]

/-- Where no jump waits, a resolution succeeds and changes nothing. -/
theorem resolve_of_idle {labels : Labels} (h : labels.waiting = []) (words : List Word) :
    (labels.resolve words).check = .ok () ∧ (labels.resolve words).words = words ∧
      (labels.resolve words).labels = labels := by
  refine ⟨?_, ?_, ?_⟩
  · rw [check_resolve_eq_ok_iff]
    intro position w _
    rw [fate_of_idle h]
    rfl
  · apply List.ext_getElem?
    intro position
    rw [getElem?_words_resolve]
    simp [fate_of_idle h, Fate.apply]
  · obtain ⟨symbols, waiting⟩ := labels
    cases h
    rfl

/-- **What a resolution does follows from the calls before it**, whatever the words are and however
many. -/
theorem resolve_by_history (calls : List Call) (words : List Word) :
    ResolvedBy calls words ((after calls).resolve words) where
  filled := by
    intro position w target hw htarget
    obtain ⟨w', addr, label, hw', hfate⟩ := hasTarget_iff.mp htarget
    obtain rfl : w = w' := Option.some.inj (hw.symm.trans hw')
    rw [getElem?_words_resolve, hw, Option.map_some, hfate]
    rfl
  kept := by
    intro position hnone
    rw [getElem?_words_resolve]
    cases hw : words[position]? with
    | none => rfl
    | some w =>
      -- a word that is filled has a target, contrary to the assumption; the others are left alone
      cases hfate : (after calls).fate words.length w position with
      | bound addr label target => exact absurd (hasTarget_iff.mpr ⟨w, addr, label, hw, hfate⟩) (hnone target)
      | kept => rw [Option.map_some, hfate]; rfl
      | bad jump => rw [Option.map_some, hfate]; rfl
  fails_iff := by
    rw [check_resolve]
    have hnone : ((after calls).resolve words).badJumps = [] ↔ _ := badJumps_resolve_eq_nil_iff
    split
    · next hnil => simp [hnone.mp hnil]
    · next hne =>
      rw [hnone] at hne
      push Not at hne
      simp [hne]
  listed := by
    intro jumps hjumps
    rw [check_resolve] at hjumps
    split at hjumps
    · cases hjumps
    · cases hjumps
      exact listedBy_badJumps calls words
  succeeds_iff := by
    rw [check_resolve, ← badJumps_resolve_eq_nil_iff]
    split
    · next hnil => simp [hnil]
    · next hne => simp [hne]
  symbols := rfl
  lookup := lookup_after calls
  done := resolve_of_idle rfl

-- the last of 257 words has the address of the first, and of its target one bit is left
example : ((after [.await 0 "far", .define "far" 33]).fate 257 0 256).apply 0 = 1 := by decide

end Labels

end PioAssembler
