import PioAssembler.Proofs.Symbols

/-!
# The order of a symbol table

`precedes` is a strict total order on labels: no label precedes itself (`not_precedes_self`), and of two
different labels one precedes the other (`precedes_or_precedes`). A table in this order,
`SymbolTable.Ordered`, is therefore determined by its entries (`SymbolTable.Ordered.eq_of_perm`), in
whichever order they came in. Every draft has such a table: `Source.ordered_symbols`.
-/

namespace PioAssembler

/-! ### The order of labels -/

/-- Labels are compared by their bytes, from the first one on. -/
theorem precedes_iff {a b : String} :
    precedes a b = true ↔ a.toUTF8.data.toList < b.toUTF8.data.toList := by
  rw [precedes, List.lex_eq_true_iff_lex]
  simp only [decide_eq_true_eq]
  rfl

theorem not_precedes_self (a : String) : ¬ precedes a a = true := by
  rw [precedes_iff]
  exact List.lt_irrefl _

/-- What precedes a label precedes those behind it. -/
theorem precedes_trans {a b c : String} (hab : precedes a b = true) (hbc : precedes b c = true) :
    precedes a c = true := by
  rw [precedes_iff] at *
  exact List.lt_trans hab hbc

/-- Two labels with the same bytes are the same. -/
theorem precedes_or_precedes {a b : String} (h : a ≠ b) :
    precedes a b = true ∨ precedes b a = true := by
  by_contra hnone
  obtain ⟨hab, hba⟩ := not_or.mp hnone
  rw [precedes_iff] at hab hba
  have hbytes : a.toUTF8.data.toList = b.toUTF8.data.toList :=
    Std.Trichotomous.trichotomous _ _ hab hba
  exact h (String.toByteArray_inj.mp (ByteArray.ext (Array.toList_inj.mp hbytes)))

/-! ### Tables in order -/

namespace SymbolTable

variable {table table' : SymbolTable} {name : String} {addr : Addr}

/-- Each label precedes those behind it. -/
def Ordered (table : SymbolTable) : Prop :=
  table.Pairwise fun entry later => precedes entry.1 later.1 = true

/-- No label stands twice in a table in order. -/
theorem Ordered.nodup_names (h : table.Ordered) : table.names.Nodup := by
  rw [names, List.Nodup, List.pairwise_map]
  apply h.imp
  intro entry later hlt heq
  exact not_precedes_self later.1 (heq ▸ hlt)

/-- **A table in order is determined by its entries.** -/
theorem Ordered.eq_of_perm (h : table.Ordered) (h' : table'.Ordered) (hperm : table.Perm table') :
    table = table' := by
  refine hperm.eq_of_pairwise ?_ h h'
  intro entry later _ _ hlt hgt
  exact absurd (precedes_trans hlt hgt) (not_precedes_self _)

/-- A new label is put between those that precede it and those that it precedes. -/
theorem Ordered.insert (h : table.Ordered) (hnone : table.find? name = none) :
    (table.insert name addr).Ordered := by
  induction table with
  | nil => exact List.pairwise_singleton _ _
  | cons entry rest ih =>
    obtain ⟨key, value⟩ := entry
    obtain ⟨hfirst, hrest⟩ := List.pairwise_cons.mp h
    rw [find?_cons] at hnone
    split at hnone
    · cases hnone
    · next hne =>
      rw [SymbolTable.insert]
      split
      · next hlt =>
        refine List.pairwise_cons.mpr ⟨?_, h⟩
        intro later hlater
        rcases List.mem_cons.mp hlater with rfl | hbehind
        · exact hlt
        · exact precedes_trans hlt (hfirst later hbehind)
      · next hge =>
        -- the names differ, so this entry precedes the new one
        refine List.pairwise_cons.mpr ⟨?_, ih hrest hnone⟩
        intro later hlater
        rcases mem_insert.mp hlater with rfl | hbehind
        · exact (precedes_or_precedes hne).resolve_left hge
        · exact hfirst later hbehind

/-- Two labels can be added in either order. -/
theorem Ordered.insert_comm (h : table.Ordered) {other : String} (addr' : Addr) (hne : name ≠ other)
    (hname : table.find? name = none) (hother : table.find? other = none) :
    (table.insert name addr).insert other addr' = (table.insert other addr').insert name addr := by
  have hother' : (table.insert name addr).find? other = none := by
    rw [find?_insert addr hname, if_neg hne.symm, hother]
  have hname' : (table.insert other addr').find? name = none := by
    rw [find?_insert addr' hother, if_neg hne, hname]
  refine ((h.insert hname).insert hother').eq_of_perm ((h.insert hother).insert hname') ?_
  have htwice : ∀ (first second : String) (a b : Addr),
      ((table.insert first a).insert second b).Perm ((second, b) :: (first, a) :: table) :=
    fun _ _ _ _ => (insert_perm _ _ _).trans ((insert_perm _ _ _).cons _)
  calc List.Perm ((table.insert name addr).insert other addr') ((other, addr') :: (name, addr) :: table) :=
        htwice name other addr addr'
    List.Perm _ ((name, addr) :: (other, addr') :: table) := .swap _ _ _
    List.Perm _ ((table.insert other addr').insert name addr) := (htwice other name addr' addr).symm

end SymbolTable

/-! ### Attempts to define a label -/

namespace Labels

/-- The labels after an attempt to define one: the first definition stays. -/
def mark (labels : Labels) (name : String) (addr : Addr) : Labels :=
  match labels.define name addr with
  | .ok labels' => labels'
  | .error _ => labels

theorem mark_of_none {labels : Labels} {name : String} (h : labels.lookup name = none) (addr : Addr) :
    labels.mark name addr = { labels with symbols := labels.symbols.insert name addr } := by
  rw [mark, define, h]

theorem mark_of_some {labels : Labels} {name : String} {first : Addr}
    (h : labels.lookup name = some first) (addr : Addr) : labels.mark name addr = labels := by
  rw [mark, define, h]

theorem waiting_mark (labels : Labels) (name : String) (addr : Addr) :
    (labels.mark name addr).waiting = labels.waiting := by
  cases h : labels.lookup name with
  | none => rw [mark_of_none h]
  | some first => rw [mark_of_some h]

/-- An attempt to define a label counts only for this label, and only if it is the first. -/
theorem lookup_mark (labels : Labels) (name : String) (addr : Addr) (other : String) :
    (labels.mark name addr).lookup other
      = (labels.lookup other).or (if other = name then some addr else none) := by
  cases h : labels.lookup name with
  | none =>
    rw [mark_of_none h]
    show SymbolTable.find? (labels.symbols.insert name addr) other = _
    rw [SymbolTable.find?_insert addr h]
    by_cases ho : other = name
    · rw [if_pos ho, if_pos ho, ho, h, Option.none_or]
    · rw [if_neg ho, if_neg ho, Option.or_none]
      rfl
  | some first =>
    rw [mark_of_some h]
    by_cases ho : other = name
    · rw [ho, h, Option.some_or]
    · rw [if_neg ho, Option.or_none]

/-- Of two labels at one address it does not matter which is defined first, nor whether they are the
same. -/
theorem mark_comm {labels : Labels} (h : labels.symbols.Ordered) (name other : String) (addr : Addr) :
    (labels.mark name addr).mark other addr = (labels.mark other addr).mark name addr := by
  by_cases hne : name = other
  · rw [hne]
  · have hname : (labels.mark other addr).lookup name = labels.lookup name := by
      rw [lookup_mark, if_neg hne, Option.or_none]
    have hother : (labels.mark name addr).lookup other = labels.lookup other := by
      rw [lookup_mark, if_neg (Ne.symm hne), Option.or_none]
    cases hn : labels.lookup name with
    | some first => rw [mark_of_some (hname.trans hn), mark_of_some hn]
    | none =>
      cases ho : labels.lookup other with
      | some first => rw [mark_of_some (hother.trans ho), mark_of_some ho]
      | none =>
        rw [mark_of_none (hother.trans ho), mark_of_none (hname.trans hn), mark_of_none hn,
          mark_of_none ho]
        show Labels.mk _ _ = Labels.mk _ _
        rw [h.insert_comm addr hne hn ho]

end Labels

/-! ### The table of a draft -/

/-- A step keeps the symbol table in order. -/
theorem Draft.Step.ordered_symbols {d d' : Draft} {st : Statement} (h : d.labels.symbols.Ordered)
    (hstep : d.Step st d') : d'.labels.symbols.Ordered := by
  cases hstep with
  | instruction encoded free =>
    rw [Draft.symbols_await]
    exact h
  | label fresh => exact h.insert fresh
  | wrapTarget | wrap | sideSet | delay | side => exact h

/-- Every draft has its symbol table in order. -/
theorem Source.ordered_symbols (source : Source) : source.draft.labels.symbols.Ordered :=
  draft_induction List.Pairwise.nil (fun h hstep => hstep.ordered_symbols h) source

end PioAssembler
