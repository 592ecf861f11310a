import PioAssembler.Error

/-!
# Symbol tables

A symbol table gives each label its address. It is kept in the order of the labels' UTF-8 bytes, so
two tables with the same entries are the same list.
-/

namespace PioAssembler

/-- Whether one text comes before another in the order of their UTF-8 bytes; a proper beginning
comes first. -/
def precedes (a b : String) : Bool :=
  List.lex a.toUTF8.data.toList b.toUTF8.data.toList (· < ·)

/-- Labels with their addresses, in increasing order of the labels. -/
abbrev SymbolTable := List (String × Addr)

namespace SymbolTable

/-- The address of a label, if it has one. -/
def find? (table : SymbolTable) (name : String) : Option Addr := List.lookup name table

/-- Adds a label that the table does not hold yet, at its place in the order. -/
def insert (table : SymbolTable) (name : String) (addr : Addr) : SymbolTable :=
  match table with
  | [] => [(name, addr)]
  | entry :: rest =>
      if precedes name entry.1 then (name, addr) :: entry :: rest
      else entry :: insert rest name addr

@[simp] theorem find?_nil (name : String) : SymbolTable.find? [] name = none := rfl

theorem find?_cons (key : String) (addr : Addr) (rest : SymbolTable) (name : String) :
    SymbolTable.find? ((key, addr) :: rest) name
      = if name = key then some addr else rest.find? name := by
  rw [find?, List.lookup_cons]
  by_cases h : name = key
  · simp [h]
  · simp [h, beq_false_of_ne h, find?]

/-- A label that is added is found, and no other one is lost or moved. -/
theorem find?_insert {table : SymbolTable} {name : String} (addr : Addr)
    (h : table.find? name = none) (other : String) :
    (table.insert name addr).find? other = if other = name then some addr else table.find? other := by
  induction table with
  | nil => rw [insert, find?_cons]
  | cons entry rest ih =>
    obtain ⟨key, value⟩ := entry
    rw [find?_cons] at h
    split at h
    · cases h
    · next hkey =>
      rw [insert]
      split
      · rw [find?_cons]
      · rw [find?_cons, find?_cons, ih h]
        by_cases ho : other = key
        · simp [ho, Ne.symm hkey]
        · simp [ho]

end SymbolTable

end PioAssembler
