import Mathlib.Data.List.Nodup
import PioAssembler.Proofs.Resolution

/-!
# The first definition of a label

A label can be defined only once. After any calls, whichever of them were refused, the table holds for
each label the address in its first definition, and it is in order, so it depends on nothing else:

* `Labels.symbols_after_eq`: two histories in which every label has the same definitions, in the same
  order, lead to the same table, however the definitions of different labels are mixed, and with
  whatever other calls between them.
* `Labels.firstWins_after`: what is refused, what is found and what the table looks like, read off the
  calls.
-/

namespace PioAssembler

namespace SymbolTable

variable {table table' : SymbolTable}

theorem Ordered.nodup (h : table.Ordered) : table.Nodup := List.Nodup.of_map Prod.fst h.nodup_names

theorem Ordered.eq_of_mem_iff (h : table.Ordered) (h' : table'.Ordered)
    (hmem : ∀ entry, entry ∈ table ↔ entry ∈ table') : table = table' :=
  h.eq_of_perm h' ((List.perm_ext_iff_of_nodup h.nodup h'.nodup).mpr hmem)

/-- Tables in order in which the same labels are found at the same addresses are the same. -/
theorem Ordered.eq_of_find? (h : table.Ordered) (h' : table'.Ordered)
    (hfind : ∀ name, table.find? name = table'.find? name) : table = table' := by
  refine h.eq_of_mem_iff h' ?_
  rintro ⟨name, addr⟩
  rw [← find?_eq_some_iff h.nodup_names, ← find?_eq_some_iff h'.nodup_names, hfind]

end SymbolTable

namespace Labels

/-! ### The table after some calls -/

theorem ordered_mark {labels : Labels} (h : labels.symbols.Ordered) (name : String) (addr : Addr) :
    (labels.mark name addr).symbols.Ordered := by
  cases hname : labels.lookup name with
  | none =>
    rw [mark_of_none hname]
    exact SymbolTable.Ordered.insert h hname
  | some first =>
    rw [mark_of_some hname]
    exact h

/-- Every call keeps the table in order, whether or not it succeeds. -/
theorem ordered_perform {labels : Labels} (h : labels.symbols.Ordered) (call : Call) :
    (labels.perform call).symbols.Ordered := by
  cases call with
  | define name addr => exact ordered_mark h name addr
  | await | lookup | resolve => exact h

/-- After any calls the table is in order. -/
theorem ordered_after (calls : List Call) : (after calls).symbols.Ordered := by
  induction calls using List.reverseRecOn with
  | nil => exact List.Pairwise.nil
  | append_singleton calls call ih =>
    rw [after_concat]
    exact ordered_perform ih call

/-! ### Definitions in a history -/

namespace Call

/-- Every label has the same definitions in both histories, and in the same order. The definitions of
different labels may be mixed in any way. -/
def SameDefinitions (calls calls' : List Call) : Prop :=
  ∀ name, calls.filterMap (defines? name) = calls'.filterMap (defines? name)

theorem defines?_eq_some_iff {call : Call} {name : String} {addr : Addr} :
    call.defines? name = some addr ↔ call = .define name addr := by
  cases call with
  | define other addr' =>
    rw [defines?]
    split
    · next hname => simp [hname]
    · next hname => simp [Ne.symm hname]
  | await | lookup | resolve => simp [defines?]

/-- A label has a first definition exactly if it has one at all. -/
theorem exists_defined?_iff {calls : List Call} {name : String} :
    (∃ first, defined? calls name = some first) ↔ ∃ addr, .define name addr ∈ calls := by
  rw [← Option.isSome_iff_exists, defined?, List.findSome?_isSome_iff]
  constructor
  · rintro ⟨call, hcall, hdefines⟩
    obtain ⟨addr, haddr⟩ := Option.isSome_iff_exists.mp hdefines
    exact ⟨addr, defines?_eq_some_iff.mp haddr ▸ hcall⟩
  · rintro ⟨addr, hcall⟩
    exact ⟨_, hcall, Option.isSome_iff_exists.mpr ⟨addr, defines?_eq_some_iff.mpr rfl⟩⟩

/-- Histories with the same definitions of every label have the same first definitions. -/
theorem SameDefinitions.defined?_eq {calls calls' : List Call} (h : SameDefinitions calls calls')
    (name : String) : defined? calls name = defined? calls' name := by
  rw [defined?, defined?, ← List.head?_filterMap, ← List.head?_filterMap, h name]

end Call

/-- **The table depends on the definitions alone**, and not on how those of different labels are mixed. -/
theorem symbols_after_eq {calls calls' : List Call} (h : Call.SameDefinitions calls calls') :
    (after calls).symbols = (after calls').symbols := by
  refine (ordered_after calls).eq_of_find? (ordered_after calls') ?_
  intro name
  show (after calls).lookup name = (after calls').lookup name
  rw [lookup_after, lookup_after, h.defined?_eq]

/-! ### What is refused -/

/-- Whether a definition is refused follows from the calls before it, and so does what the error names. -/
theorem define_after (calls : List Call) (name : String) (addr : Addr) :
    (after calls).define name addr =
      match Call.defined? calls name with
      | some first => .error (.duplicateLabel name first addr)
      | none => .ok { after calls with symbols := (after calls).symbols.insert name addr } := by
  cases hdefined : Call.defined? calls name with
  | some first => simp [define, lookup_after, hdefined]
  | none => simp [define, lookup_after, hdefined]

/-- What holds after some calls, whichever of them were refused. -/
structure FirstWins (calls : List Call) : Prop where
  /-- A definition is refused exactly if the label was defined by an earlier call. -/
  refused_iff : ∀ name addr,
    (∃ e, (after calls).define name addr = .error e) ↔ ∃ earlier, .define name earlier ∈ calls
  /-- The complaint names the address of the first definition and that of the refused one. -/
  complaint : ∀ name addr e, (after calls).define name addr = .error e →
    ∃ first, Call.defined? calls name = some first ∧ e = .duplicateLabel name first addr
  unchanged : ∀ name addr e, (after calls).define name addr = .error e →
    after (calls ++ [.define name addr]) = after calls
  lookup : ∀ name, (after calls).lookup name = Call.defined? calls name
  mem_symbols : ∀ name addr,
    (name, addr) ∈ (after calls).symbols ↔ (after calls).lookup name = some addr
  nodup_names : (after calls).symbols.names.Nodup
  /-- The labels increase in the order of their bytes. -/
  increasing : (after calls).symbols.Pairwise fun entry later =>
    entry.1.toUTF8.data.toList < later.1.toUTF8.data.toList
  reordered : ∀ calls', Call.SameDefinitions calls calls' →
    (after calls').symbols = (after calls).symbols

/-- **The first definition of a label stays**, and the table is determined by the first definitions. -/
theorem firstWins_after (calls : List Call) : FirstWins calls where
  refused_iff := by
    intro name addr
    rw [define_after, ← Call.exists_defined?_iff]
    cases Call.defined? calls name with
    | some first => simp
    | none => simp
  complaint := by
    intro name addr e he
    rw [define_after] at he
    split at he
    · next first hfirst =>
      cases he
      exact ⟨first, hfirst, rfl⟩
    · cases he
  unchanged := by
    intro name addr e he
    rw [after_concat]
    show (after calls).mark name addr = after calls
    rw [mark, he]
  lookup := lookup_after calls
  mem_symbols := fun _ _ => (SymbolTable.find?_eq_some_iff (ordered_after calls).nodup_names).symm
  nodup_names := (ordered_after calls).nodup_names
  increasing := (ordered_after calls).imp precedes_iff.mp
  reordered := fun _ h => (symbols_after_eq h).symm

-- definitions of two labels in another order, one of them refused, and a resolution between them
example :
    (after [.define "é" 4, .define "z" 2, .define "z" 9]).symbols
      = (after [.define "z" 2, .resolve [0], .define "z" 9, .define "é" 4]).symbols := by decide

end Labels

end PioAssembler
