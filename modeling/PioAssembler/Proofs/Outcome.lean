import PioAssembler.Proofs.Resolution

/-!
# The outcome of building

`Source.Outcome source result` lists the rules by which building a source ends: with the first complaint,
in the order of the checks, or with a program. The rules speak of the draft, of the accepted jumps and of
the accepted side-set values; none of them mentions the passes that look for the faults.

* `Source.mem_badJumps_iff`, `Source.pairwise_badJumps`: a resolution complains about the jumps to labels
  that have no address inside the program, in the order of their addresses.
* `Source.outcome_build`, `Source.Outcome.build_eq`: building follows the rules, and nothing else does.
-/

namespace PioAssembler

/-! ### What a resolution complains about -/

namespace Labels

variable {labels : Labels} {words : List Word}

/-- A complaint names the position it is made at. -/
theorem addr_of_badJump? {count position : Nat} {w : Word} {jump : BadJump}
    (h : (labels.fate count w position).badJump? = some jump) : jump.addr = UInt8.ofNat position := by
  revert h
  fun_cases labels.fate count w position with
  | case1 addr hjmp hfree => intro h; cases h
  | case2 addr hjmp name hname hnone => intro h; cases h; rfl
  | case3 addr hjmp name hname target htarget hlt => intro h; cases h
  | case4 addr hjmp name hname target htarget hlt => intro h; cases h; rfl
  | case5 hother => intro h; cases h

/-- The complaints are in the order of the jumps, as long as addresses tell the jumps apart. -/
theorem pairwise_badJumps_resolve (h : words.length ≤ 256) :
    (labels.resolve words).badJumps.Pairwise fun a b => a.addr < b.addr := by
  rw [badJumps_resolve]
  exact pairwise_filterMap_fates h fun _ _ _ => addr_of_badJump?

end Labels

namespace Source

/-! ### Faults -/

/-- The instruction at an address was accepted without a side-set value. -/
def Unsided (source : Source) (addr : Nat) : Prop :=
  ∃ op, source.operations[addr]? = some op ∧ op.side = none

/-- Side-set is mandatory, and the instruction at an address is the first that goes without. -/
structure LacksSide (source : Source) (addr : Addr) : Prop where
  enabled : source.draft.effectiveSideSet.enabled = true
  mandatory : source.draft.effectiveSideSet.optional = false
  unsided : source.Unsided addr.toNat
  first : ∀ earlier < addr.toNat, ¬ source.Unsided earlier

/-- The instruction at an address is an accepted jump to a label. -/
def JumpsTo (source : Source) (addr : Addr) (label : String) : Prop :=
  ∃ op, source.operations[addr.toNat]? = some op ∧ label ∈ op.instruction.target?

/-- An accepted jump goes astray: nothing defines its label, or the label stands behind the last
instruction. -/
inductive Astray (source : Source) : BadJump → Prop where
  | undefined {addr : Addr} {label : String} (jump : source.JumpsTo addr label)
      (never : .label label ∉ source) : Astray source ⟨addr, label, .undefined⟩
  | pastEnd {addr target : Addr} {label : String} (jump : source.JumpsTo addr label)
      (behind : source.address label = some source.draft.count)
      (target_eq : target.toNat = source.draft.count) : Astray source ⟨addr, label, .pastEnd target⟩

/-- The rules by which building ends. -/
inductive Outcome (source : Source) : Except Failure Program → Prop where
  | empty (empty : source.draft.count = 0) : Outcome source (.error (.rejected .emptyProgram))
  | unsided {addr : Addr} (nonempty : source.draft.count ≠ 0) (lacks : source.LacksSide addr) :
      Outcome source (.error (.rejected (.missingSideSet addr)))
  /-- All jumps that go astray are named, each once and in the order of their addresses. -/
  | astray {jumps : List BadJump} (nonempty : source.draft.count ≠ 0)
      (sided : ∀ addr, ¬ source.LacksSide addr) (stray : ∃ jump, source.Astray jump)
      (all : ∀ jump, jump ∈ jumps ↔ source.Astray jump)
      (ordered : jumps.Pairwise fun a b => a.addr < b.addr) :
      Outcome source (.error (.rejected (.unresolvedLabels jumps)))
  | insideOut (nonempty : source.draft.count ≠ 0) (sided : ∀ addr, ¬ source.LacksSide addr)
      (located : ∀ jump, ¬ source.Astray jump)
      (window : source.draft.effectiveWrap < source.draft.effectiveWrapTarget) :
      Outcome source (.error (.rejected (.invalidWrap source.draft.effectiveWrapTarget
        source.draft.effectiveWrap source.draft.count)))
  | complete (nonempty : source.draft.count ≠ 0) (sided : ∀ addr, ¬ source.LacksSide addr)
      (located : ∀ jump, ¬ source.Astray jump)
      (window : source.draft.effectiveWrapTarget ≤ source.draft.effectiveWrap) :
      Outcome source (.ok source.image)

/-! ### Missing side-set values -/

/-- An operation without a side-set value is a slot that was not given one. -/
theorem unsided_iff {source : Source} {addr : Nat} :
    source.Unsided addr ↔
      ∃ slot, source.draft.slots[addr]? = some slot ∧ slot.sided = false := by
  have hslots : source.draft.slots = source.operations.map _ := source.reflects_draft.code.slots
  rw [hslots, List.getElem?_map, Unsided]
  cases source.operations[addr]? with
  | none => simp
  | some op => simp [Operation.slot]

/-- The search for a missing side-set value finds the first one that is missing. -/
theorem findIdx?_unsided {source : Source} {addr : Nat} :
    (source.draft.slots.findIdx? fun slot => !slot.sided) = some addr ↔
      source.Unsided addr ∧ ∀ earlier < addr, ¬ source.Unsided earlier := by
  simp only [List.findIdx?_eq_some_iff_getElem, unsided_iff, List.getElem?_eq_some_iff]
  constructor
  · rintro ⟨hlt, hunsided, hfirst⟩
    refine ⟨⟨_, ⟨hlt, rfl⟩, by simpa using hunsided⟩, ?_⟩
    rintro earlier hearlier ⟨slot, ⟨_, rfl⟩, hslot⟩
    exact hfirst earlier hearlier (by rw [hslot]; rfl)
  · rintro ⟨⟨slot, ⟨hlt, rfl⟩, hunsided⟩, hfirst⟩
    refine ⟨hlt, by rw [hunsided]; rfl, ?_⟩
    intro earlier hearlier hslot
    exact hfirst earlier hearlier ⟨_, ⟨hearlier.trans hlt, rfl⟩, by simpa using hslot⟩

/-- There are few enough instructions for their positions to be addresses. -/
theorem map_findIdx?_unsided {source : Source} {addr : Addr} :
    (source.draft.slots.findIdx? fun slot => !slot.sided).map UInt8.ofNat = some addr ↔
      source.Unsided addr.toNat ∧ ∀ earlier < addr.toNat, ¬ source.Unsided earlier := by
  rw [← findIdx?_unsided, Option.map_eq_some_iff]
  constructor
  · rintro ⟨position, hposition, rfl⟩
    have hlt := (List.findIdx?_eq_some_iff_getElem.mp hposition).1
    rw [toNat_ofNat_of_le (hlt.le.trans source.consistent_draft.count_le)]
    exact hposition
  · intro hposition
    exact ⟨addr.toNat, hposition, UInt8.ofNat_toNat⟩

/-- The check names the first instruction that lacks its side-set value. -/
theorem firstUnsided?_eq_some_iff {source : Source} {addr : Addr} :
    source.draft.firstUnsided? = some addr ↔ source.LacksSide addr := by
  rw [Draft.firstUnsided?]
  split
  · next hmust =>
    rw [Bool.and_eq_true, Bool.not_eq_true'] at hmust
    rw [map_findIdx?_unsided]
    constructor
    · rintro ⟨hunsided, hfirst⟩
      exact ⟨hmust.1, hmust.2, hunsided, hfirst⟩
    · intro hlacks
      exact ⟨hlacks.unsided, hlacks.first⟩
  · next hmay =>
    constructor
    · intro hsome
      cases hsome
    · intro hlacks
      exact absurd (by rw [hlacks.enabled, hlacks.mandatory]; rfl) hmay

/-- The check passes exactly if no instruction lacks its side-set value. -/
theorem firstUnsided?_eq_none_iff_forall {source : Source} :
    source.draft.firstUnsided? = none ↔ ∀ addr, ¬ source.LacksSide addr := by
  rw [Option.eq_none_iff_forall_ne_some]
  exact forall_congr' fun addr => not_congr firstUnsided?_eq_some_iff

/-! ### Jumps that go astray -/

theorem address_eq_none_iff {source : Source} {name : String} :
    source.address name = none ↔ .label name ∉ source := by
  rw [address]
  split
  · next h => simp [h]
  · next h => simp [h]

/-- What is wrong with a label as a target. -/
def fault? (source : Source) (name : String) : Option BadJump.Cause :=
  match source.address name with
  | none => some .undefined
  | some a => if a < source.count then none else some (.pastEnd (UInt8.ofNat a))

/-- What is wrong with a jump is what is wrong with its label as a target. -/
theorem badJump?_fate_eq {source : Source} {position : Nat} {op : Operation String}
    (h : source.operations[position]? = some op) :
    (source.draft.labels.fate source.count ((op.map fun _ => 0).word source.sideSet)
        position).badJump? =
      op.instruction.target?.bind fun name =>
        (source.fault? name).map fun cause => ⟨UInt8.ofNat position, name, cause⟩ := by
  rw [fate_eq h]
  cases op.instruction.target? with
  | none => rfl
  | some name =>
    simp only [Option.bind_some, fault?]
    cases source.address name with
    | none => rfl
    | some a => by_cases hlt : a < source.count <;> simp [hlt, Labels.Fate.badJump?]

/-- A label that stands inside the program is no wrong target; one that does not stands at its end. -/
theorem astray_iff {source : Source} {addr : Addr} {label : String} {cause : BadJump.Cause} :
    source.Astray ⟨addr, label, cause⟩ ↔
      source.JumpsTo addr label ∧ source.fault? label = some cause := by
  have hcount := source.count_eq
  rw [fault?]
  constructor
  · intro h
    cases h with
    | undefined jump never =>
      rw [address_eq_none_iff.mpr never]
      exact ⟨jump, rfl⟩
    | @pastEnd _ target _ jump behind target_eq =>
      have htarget := UInt8.ofNat_toNat (x := target)
      rw [target_eq, hcount] at htarget
      rw [behind, hcount]
      exact ⟨jump, by simp [htarget]⟩
  · rintro ⟨jump, hfault⟩
    cases ha : source.address label with
    | none =>
      rw [ha] at hfault
      cases hfault
      exact .undefined jump (address_eq_none_iff.mp ha)
    | some a =>
      rw [ha] at hfault
      have hle := address_le_count ha
      dsimp only at hfault
      split at hfault
      · cases hfault
      · next hge =>
        -- a label never stands behind the next address, so what is not inside stands at the end
        obtain rfl : a = source.count := by omega
        cases hfault
        exact .pastEnd jump (by rw [ha, hcount])
          (by rw [hcount, toNat_ofNat_of_le source.count_le_capacity])

/-- The complaints when the jumps of a source are resolved. -/
def badJumps (source : Source) : List BadJump :=
  (source.draft.labels.resolve source.draft.words).badJumps

/-- A position in a program is an address, so what is made of the fates of the words is made of the
operation at an address. -/
theorem mem_filterMap_fates {β : Type} {g : Labels.Fate → Option β} {source : Source} {item : β} :
    item ∈ (source.draft.labels.fates source.draft.words).filterMap g ↔
      ∃ (addr : Addr) (op : Operation String), source.operations[addr.toNat]? = some op ∧
        g (source.draft.labels.fate source.count ((op.map fun _ => 0).word source.sideSet)
          addr.toNat) = some item := by
  rw [Labels.mem_filterMap_fates, source.words_draft, List.length_map, source.length_operations]
  constructor
  · rintro ⟨position, w, hw, hitem⟩
    rw [List.getElem?_map] at hw
    obtain ⟨op, hget, rfl⟩ := Option.map_eq_some_iff.mp hw
    have hposition := toNat_ofNat_position hget
    exact ⟨UInt8.ofNat position, op, by rw [hposition]; exact hget, by rw [hposition]; exact hitem⟩
  · rintro ⟨addr, op, hget, hitem⟩
    exact ⟨addr.toNat, _, by rw [List.getElem?_map, hget]; rfl, hitem⟩

/-- **A resolution complains about exactly the jumps that go astray.** -/
theorem mem_badJumps_iff {source : Source} {jump : BadJump} :
    jump ∈ source.badJumps ↔ source.Astray jump := by
  obtain ⟨addr, label, cause⟩ := jump
  rw [badJumps, Labels.badJumps_resolve, mem_filterMap_fates, astray_iff]
  constructor
  · rintro ⟨addr', op, hget, hjump⟩
    rw [badJump?_fate_eq hget, UInt8.ofNat_toNat] at hjump
    obtain ⟨name, hname, hjump⟩ := Option.bind_eq_some_iff.mp hjump
    obtain ⟨cause', hfault, hjump⟩ := Option.map_eq_some_iff.mp hjump
    cases hjump
    exact ⟨⟨op, hget, hname⟩, hfault⟩
  · rintro ⟨⟨op, hget, hname⟩, hfault⟩
    refine ⟨addr, op, hget, ?_⟩
    rw [badJump?_fate_eq hget, hname, Option.bind_some, hfault, Option.map_some, UInt8.ofNat_toNat]

/-- The complaints stand in the order of the addresses, so no jump is named twice. -/
theorem pairwise_badJumps (source : Source) :
    source.badJumps.Pairwise fun a b => a.addr < b.addr := by
  have hcount : source.draft.count ≤ 32 := source.consistent_draft.count_le
  apply Labels.pairwise_badJumps_resolve
  rw [Draft.words, List.length_map]
  exact hcount.trans (by decide)

/-- No other list names the jumps that go astray in the order of their addresses. -/
theorem eq_badJumps {source : Source} {jumps : List BadJump}
    (hall : ∀ jump, jump ∈ jumps ↔ source.Astray jump)
    (hordered : jumps.Pairwise fun a b => a.addr < b.addr) : jumps = source.badJumps := by
  have hnodup : ∀ {js : List BadJump}, js.Pairwise (fun a b => a.addr < b.addr) → js.Nodup := by
    intro js hjs
    exact hjs.imp fun hlt heq => absurd (heq ▸ hlt) (UInt8.lt_irrefl _)
  refine List.Perm.eq_of_pairwise ?_ hordered source.pairwise_badJumps ?_
  · intro a b _ _ hab hba
    exact absurd (UInt8.lt_trans hab hba) (UInt8.lt_irrefl _)
  · rw [List.perm_ext_iff_of_nodup (hnodup hordered) (hnodup source.pairwise_badJumps)]
    intro jump
    rw [hall, mem_badJumps_iff]

theorem badJumps_eq_nil_iff {source : Source} :
    source.badJumps = [] ↔ ∀ jump, ¬ source.Astray jump := by
  rw [List.eq_nil_iff_forall_not_mem]
  exact forall_congr' fun jump => not_congr mem_badJumps_iff

/-! ### The rules and the checks -/

/-- The window in the draft is in order exactly if the one that the source says is. -/
theorem window_le_iff {source : Source} (h : source.count ≠ 0) :
    source.draft.effectiveWrapTarget ≤ source.draft.effectiveWrap ↔
      source.wrapTarget ≤ source.wrap := by
  rw [source.reflects_draft.marks.wrapTarget, source.effectiveWrap_eq, UInt8.le_iff_toNat_le,
    source.wrapTarget_toNat, wrap_toNat h]

/-- What building does, in the terms of the rules. -/
theorem build_eq_ite (source : Source) :
    source.build =
      if source.draft.count = 0 then .error (.rejected .emptyProgram)
      else
        match source.draft.firstUnsided? with
        | some addr => .error (.rejected (.missingSideSet addr))
        | none =>
            if source.badJumps ≠ [] then .error (.rejected (.unresolvedLabels source.badJumps))
            else if source.draft.effectiveWrapTarget ≤ source.draft.effectiveWrap then
              .ok source.image
            else
              .error (.rejected (.invalidWrap source.draft.effectiveWrapTarget
                source.draft.effectiveWrap source.draft.count)) := by
  rw [build_eq, source.count_eq]
  by_cases hzero : source.count = 0
  · rw [if_pos hzero, if_pos hzero]
  · rw [if_neg hzero, if_neg hzero]
    cases source.draft.firstUnsided? with
    | some addr => rfl
    | none =>
      dsimp only
      -- only with no jump left over are the words those of the image
      by_cases hnil : source.badJumps = []
      · have hcheck : (source.draft.labels.resolve source.draft.words).check = .ok () :=
          if_pos (List.isEmpty_iff.mpr hnil)
        rw [hcheck, if_neg (not_not.mpr hnil)]
        dsimp only
        rw [words_resolve (check_resolve_iff.mp hcheck), source.reflects_draft.marks.wrapTarget.symm,
          source.effectiveWrap_eq.symm]
        simp only [window_le_iff hzero]
      · have hcheck : (source.draft.labels.resolve source.draft.words).check
            = .error (.unresolvedLabels source.badJumps) :=
          if_neg (mt List.isEmpty_iff.mp hnil)
        rw [hcheck, if_pos hnil]

/-- Building follows the rules. -/
theorem outcome_build (source : Source) : source.Outcome source.build := by
  rw [build_eq_ite]
  split
  · next hzero => exact .empty hzero
  · next hzero =>
    split
    · next addr hside => exact .unsided hzero (firstUnsided?_eq_some_iff.mp hside)
    · next hside =>
      have hsided := firstUnsided?_eq_none_iff_forall.mp hside
      split
      · next hjumps =>
        obtain ⟨jump, hjump⟩ := List.exists_mem_of_ne_nil _ hjumps
        exact .astray hzero hsided ⟨jump, mem_badJumps_iff.mp hjump⟩ (fun _ => mem_badJumps_iff)
          source.pairwise_badJumps
      · next hnil =>
        have hlocated := badJumps_eq_nil_iff.mp (not_not.mp hnil)
        split
        · next hle => exact .complete hzero hsided hlocated hle
        · next hgt => exact .insideOut hzero hsided hlocated (UInt8.not_le.mp hgt)

/-- What the rules allow is what building gives. -/
theorem Outcome.build_eq {source : Source} {result : Except Failure Program}
    (h : source.Outcome result) : source.build = result := by
  rw [build_eq_ite]
  cases h with
  | empty hzero => rw [if_pos hzero]
  | unsided hzero hlacks => rw [if_neg hzero, firstUnsided?_eq_some_iff.mpr hlacks]
  | astray hzero hsided hstray hall hordered =>
    obtain ⟨jump, hjump⟩ := hstray
    rw [if_neg hzero, firstUnsided?_eq_none_iff_forall.mpr hsided, eq_badJumps hall hordered]
    exact if_pos (List.ne_nil_of_mem (mem_badJumps_iff.mpr hjump))
  | insideOut hzero hsided hlocated hwindow =>
    rw [if_neg hzero, firstUnsided?_eq_none_iff_forall.mpr hsided, badJumps_eq_nil_iff.mpr hlocated]
    exact if_neg (UInt8.not_le.mpr hwindow)
  | complete hzero hsided hlocated hwindow =>
    rw [if_neg hzero, firstUnsided?_eq_none_iff_forall.mpr hsided, badJumps_eq_nil_iff.mpr hlocated]
    exact if_pos hwindow

/-- **Building ends in exactly one way, which the rules give**: the checks come in their order, all
jumps that go astray are named, and a wrap window is refused only for being inside out, since it never
reaches behind the last instruction. -/
theorem build_eq_iff_outcome (source : Source) (result : Except Failure Program) :
    (source.build = result ↔ source.Outcome result) ∧
      (source.draft.count ≠ 0 → source.draft.effectiveWrap.toNat < source.draft.count) := by
  refine ⟨⟨?_, Outcome.build_eq⟩, ?_⟩
  · rintro rfl
    exact source.outcome_build
  · rw [source.count_eq, source.effectiveWrap_eq]
    intro hne
    rw [wrap_toNat hne]
    exact wrap_lt_count hne

-- the wrap window starts behind the end, but the jumps are looked at first, and both of them
example :
    build [.instruction (.jmp .always "nowhere"), .instruction (.jmp .pin "end"), .wrapTarget,
        .label "end"]
      = .error (.rejected (.unresolvedLabels [⟨0, "nowhere", .undefined⟩, ⟨1, "end", .pastEnd 2⟩])) := by
  decide +kernel

end Source

end PioAssembler
