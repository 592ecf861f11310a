import PioAssembler.Labels.SymbolTable

/-!
# Labels

A jump may name a label that is defined only later. `Labels` therefore keeps two things: the labels
defined so far, and the jumps that still wait for an address.
-/

namespace PioAssembler

/-- Defined labels and waiting jumps. -/
structure Labels where
  /-- The defined labels. -/
  symbols : SymbolTable := []
  /-- The label each waiting jump names, by the jump's address; of two entries the front one
  counts. -/
  waiting : List (Addr × String) := []
  deriving DecidableEq, Repr

namespace Labels

/-- The address of a label, if it is defined. -/
def lookup (labels : Labels) (name : String) : Option Addr := labels.symbols.find? name

/-- Defines a label; the first definition stays. -/
def define (labels : Labels) (name : String) (addr : Addr) : Except Error Labels :=
  match labels.lookup name with
  | some first => .error (.duplicateLabel name first addr)
  | none => .ok { labels with symbols := labels.symbols.insert name addr }

/-- Lets the jump at an address wait for a label; a later call for the same address wins. -/
def await (labels : Labels) (addr : Addr) (name : String) : Labels :=
  { labels with waiting := (addr, name) :: labels.waiting }

/-- The label that the jump at an address waits for, if it waits. -/
def awaited (labels : Labels) (addr : Addr) : Option String := labels.waiting.lookup addr

@[simp] theorem lookup_await (labels : Labels) (addr : Addr) (name other : String) :
    (labels.await addr name).lookup other = labels.lookup other := rfl

/-- Of two labels for one address the later one counts. -/
theorem awaited_await (labels : Labels) (addr other : Addr) (name : String) :
    (labels.await addr name).awaited other
      = if other = addr then some name else labels.awaited other := by
  rw [awaited, await, List.lookup_cons]
  by_cases h : other = addr
  · simp [h]
  · simp [h, beq_false_of_ne h, awaited]

end Labels

end PioAssembler
