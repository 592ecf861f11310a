import PioAssembler.Proofs.Invariant

/-!
# Symbols of a draft

A label is never defined twice, so a symbol table has one entry for each of its labels, and looking a
label up finds this entry (`Source.find?_symbols_eq_some_iff`). No entry is ever lost
(`Source.symbols_append`).
-/

namespace PioAssembler

/-! ### Tables without repetitions -/

namespace SymbolTable

variable {table : SymbolTable} {name : String} {addr : Addr}

/-- The labels of a table, in its order. -/
def names (table : SymbolTable) : List String := table.map Prod.fst

/-- Adding a label adds its entry and nothing else, wherever it is put. -/
theorem insert_perm (table : SymbolTable) (name : String) (addr : Addr) :
    (table.insert name addr).Perm ((name, addr) :: table) := by
  induction table with
  | nil => rfl
  | cons entry rest ih =>
    rw [insert]
    split
    · rfl
    · exact (ih.cons entry).trans (.swap (name, addr) entry rest)

theorem find?_eq_none_iff : table.find? name = none ↔ name ∉ table.names := by
  induction table with
  | nil => simp [names]
  | cons entry rest ih =>
    rw [find?_cons, names, List.map_cons, List.mem_cons, ← names]
    split
    · next hname => simp [hname]
    · next hname => rw [ih, not_or, and_iff_right hname]

theorem nodup_names_insert (h : table.names.Nodup) (hnone : table.find? name = none) :
    (table.insert name addr).names.Nodup := by
  rw [names, ((insert_perm table name addr).map Prod.fst).nodup_iff, List.map_cons, List.nodup_cons]
  exact ⟨find?_eq_none_iff.mp hnone, h⟩

/-- Where no label has two entries, looking up gives the one there is. -/
theorem find?_eq_some_iff (h : table.names.Nodup) :
    table.find? name = some addr ↔ (name, addr) ∈ table := by
  induction table with
  | nil => simp
  | cons entry rest ih =>
    obtain ⟨key, value⟩ := entry
    obtain ⟨hkey, hrest⟩ := List.nodup_cons.mp h
    rw [find?_cons, List.mem_cons, ← ih hrest]
    split
    · next hname =>
      -- the label has no second entry further down
      rw [hname, find?_eq_none_iff.mpr hkey]
      simp [eq_comm]
    · next hname => simp [hname]

end SymbolTable

/-! ### The table of a draft -/

namespace Draft

/-- A step defines at most one label, and one that is new. -/
theorem Step.nodup_names {d d' : Draft} {st : Statement} (h : d.labels.symbols.names.Nodup)
    (hstep : d.Step st d') : d'.labels.symbols.names.Nodup := by
  cases hstep with
  | instruction encoded free =>
    rw [symbols_await]
    exact h
  | label fresh => exact SymbolTable.nodup_names_insert h fresh
  | wrapTarget | wrap | sideSet | delay | side => exact h

/-- A step loses no label. -/
theorem Step.symbols_subset {d d' : Draft} {st : Statement} (hstep : d.Step st d') :
    d.labels.symbols ⊆ d'.labels.symbols := by
  cases hstep with
  | instruction encoded free =>
    rw [symbols_await]
    exact List.Subset.refl _
  | label fresh =>
    intro entry hentry
    exact SymbolTable.mem_insert.mpr (.inr hentry)
  | wrapTarget | wrap | sideSet | delay | side => exact List.Subset.refl _

end Draft

namespace Source

/-- No label of a draft has two entries. -/
theorem nodup_names_symbols (source : Source) : source.draft.labels.symbols.names.Nodup :=
  draft_induction List.nodup_nil (fun h hstep => hstep.nodup_names h) source

/-- Looking up a label of a draft finds its one entry. -/
theorem find?_symbols_eq_some_iff {source : Source} {name : String} {addr : Addr} :
    source.draft.labels.symbols.find? name = some addr ↔ (name, addr) ∈ source.draft.labels.symbols :=
  SymbolTable.find?_eq_some_iff source.nodup_names_symbols

/-- What is said later takes no symbol away. -/
theorem symbols_append (source rest : Source) :
    source.draft.labels.symbols ⊆ (draft (source ++ rest)).labels.symbols := by
  induction rest using List.reverseRecOn with
  | nil =>
    rw [List.append_nil]
    exact List.Subset.refl _
  | append_singleton rest st ih =>
    rw [← List.append_assoc]
    rcases step_or_draft_concat_eq (source ++ rest) st with hstep | hsame
    · exact List.Subset.trans ih hstep.symbols_subset
    · rw [hsame]
      exact ih

end Source

end PioAssembler
