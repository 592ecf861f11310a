import PioAssembler.Event
import PioAssembler.Labels.Basic

/-!
# Giving jumps their targets

`Labels.resolve` fills in all waiting jumps of a list of words at once and reports every one that has
no target. What happens to a word, its `Fate`, depends on the labels, on the word and on its position
alone.
-/

namespace PioAssembler

namespace Labels

/-- What becomes of a word when its jumps are resolved. -/
inductive Fate where
  /-- The word is not a waiting jump. -/
  | kept
  /-- The jump is given its target. -/
  | bound (addr : Addr) (label : String) (target : Addr)
  | bad (jump : BadJump)
  deriving DecidableEq, Repr

/-- The word afterwards. -/
def Fate.apply (w : Word) : Fate → Word
  | .bound _ _ target => w.withTarget target
  | .kept | .bad _ => w

/-- The event that is logged for the word. -/
def Fate.event? : Fate → Option Event
  | .bound addr label target => some (.resolved addr label target)
  | .kept | .bad _ => none

/-- The complaint about the word. -/
def Fate.badJump? : Fate → Option BadJump
  | .bad jump => some jump
  | .kept | .bound .. => none

/-- The fate of a word in a list of `count` words. Addresses have eight bits, so the position is
taken modulo 256. -/
def fate (labels : Labels) (count : Nat) (w : Word) (position : Nat) : Fate :=
  let addr := UInt8.ofNat position
  if w.opcode = .jmp then
    match labels.awaited addr with
    | none => .kept
    | some name =>
        match labels.lookup name with
        | none => .bad ⟨addr, name, .undefined⟩
        | some target =>
            if target.toNat < count then .bound addr name target
            else .bad ⟨addr, name, .pastEnd target⟩
  else .kept

/-- The outcome of a resolution. -/
structure Resolution where
  /-- The words, each jump that has a target filled in. -/
  words : List Word
  /-- One event for each jump filled in. -/
  events : List Event
  /-- The jumps without a target. -/
  badJumps : List BadJump
  /-- The labels, with no jump waiting any more. -/
  labels : Labels
  deriving DecidableEq, Repr

/-- Gives every waiting jump its target, in one pass and in the order of the words. A jump without
a target stops neither the ones behind it nor the end of all waiting. -/
def resolve (labels : Labels) (words : List Word) : Resolution :=
  let fates := words.mapIdx fun position w => (w, labels.fate words.length w position)
  { words := fates.map fun (w, f) => f.apply w
    events := fates.filterMap fun (_, f) => f.event?
    badJumps := fates.filterMap fun (_, f) => f.badJump?
    labels := { labels with waiting := [] } }

/-- Succeeds if every jump has a target. -/
def Resolution.check (r : Resolution) : Except Error Unit :=
  if r.badJumps.isEmpty then .ok () else .error (.unresolvedLabels r.badJumps)

end Labels

end PioAssembler
