import PioAssembler.Proofs.JsonToken

/-!
# Reading JSON

`Value.tokens` is the grammar of values over tokens, and `Document` that of texts. `read?` is a reader
for it: it works through the tokens one by one and keeps a stack of the arrays and objects that are
open.

* `step_tokens`: what the reader has in hand is always made of exactly the tokens it went through.
* `Value.runs`: from the tokens of a value the reader gets the value.
* `read?_eq_some_iff`: a text is read as a value if and only if it is a document of that value.
-/

namespace PioAssembler

namespace Json

/-! ### Values -/

/-- Induction on a value, with the claim for all items of an array and for the values of all fields of
an object. -/
@[elab_as_elim, induction_eliminator]
theorem Value.induction {motive : Value → Prop} (number : ∀ n, motive (.number n))
    (bool : ∀ b, motive (.bool b)) (string : ∀ s, motive (.string s))
    (array : ∀ items, (∀ v ∈ items, motive v) → motive (.array items))
    (object : ∀ fields, (∀ field ∈ fields, motive field.2) → motive (.object fields)) (v : Value) :
    motive v := by
  refine @Value.rec motive (fun items => ∀ v ∈ items, motive v)
    (fun fields => ∀ field ∈ fields, motive field.2) (fun field => motive field.2)
    number bool string array object nofun ?_ nofun ?_ ?_ v
  · intro first rest hfirst hrest
    exact List.forall_mem_cons.mpr ⟨hfirst, hrest⟩
  · intro first rest hfirst hrest
    exact List.forall_mem_cons.mpr ⟨hfirst, hrest⟩
  · intro key v hv
    exact hv

/-! ### Documents -/

mutual

/-- The tokens of a value. -/
def Value.tokens : Value → List Token
  | .number n => [.number n]
  | .bool b => [.bool b]
  | .string s => [.string s]
  | .array items => .openBracket :: [.comma].intercalate (itemTokens items) ++ [.closeBracket]
  | .object fields => .openBrace :: [.comma].intercalate (fieldTokens fields) ++ [.closeBrace]

/-- The tokens of the items of an array. -/
def itemTokens : List Value → List (List Token)
  | [] => []
  | v :: rest => v.tokens :: itemTokens rest

/-- The tokens of the fields of an object. -/
def fieldTokens : List (String × Value) → List (List Token)
  | [] => []
  | field :: rest => fieldToken field :: fieldTokens rest

/-- The tokens of a key and its value. -/
def fieldToken : String × Value → List Token
  | (key, v) => .string key :: .colon :: v.tokens

end

/-- The text is a JSON document, and the value is what it says. -/
def Document (v : Value) (text : List Char) : Prop := Spelled v.tokens text

theorem itemTokens_eq_map (items : List Value) : itemTokens items = items.map Value.tokens := by
  induction items with
  | nil => rfl
  | cons v rest ih => rw [itemTokens, ih, List.map_cons]

theorem fieldTokens_eq_map (fields : List (String × Value)) :
    fieldTokens fields = fields.map fieldToken := by
  induction fields with
  | nil => rfl
  | cons field rest ih => rw [fieldTokens, ih, List.map_cons]

/-! ### The reader -/

/-- An array or object that is open, with what it has so far. -/
inductive Frame where
  /-- An item of the array is being read. -/
  | item (before : List Value)
  /-- The value of a key is being read. -/
  | field (before : List (String × Value)) (key : String)

/-- Where the reader stands, and what is open there, innermost first. -/
inductive State where
  /-- Before a value. -/
  | value (stack : List Frame)
  /-- Behind the bracket that opens an array. -/
  | firstItem (stack : List Frame)
  /-- Behind the brace that opens an object. -/
  | firstKey (stack : List Frame)
  /-- Behind the comma between two fields. -/
  | nextKey (before : List (String × Value)) (stack : List Frame)
  /-- Between a key and its value. -/
  | colon (before : List (String × Value)) (key : String) (stack : List Frame)
  /-- Behind a value. -/
  | complete (v : Value) (stack : List Frame)

/-- The token begins a value. -/
def start (stack : List Frame) : Token → Option State
  | .number n => some (.complete (.number n) stack)
  | .bool b => some (.complete (.bool b) stack)
  | .string s => some (.complete (.string s) stack)
  | .openBracket => some (.firstItem stack)
  | .openBrace => some (.firstKey stack)
  | _ => none

/-- Goes on with one token. -/
def step : State → Token → Option State
  | .value stack, tok => start stack tok
  | .firstItem stack, .closeBracket => some (.complete (.array []) stack)
  | .firstItem stack, tok => start (.item [] :: stack) tok
  | .firstKey stack, .closeBrace => some (.complete (.object []) stack)
  | .firstKey stack, .string key => some (.colon [] key stack)
  | .nextKey before stack, .string key => some (.colon before key stack)
  | .colon before key stack, .colon => some (.value (.field before key :: stack))
  | .complete v (.item before :: stack), .comma => some (.value (.item (before ++ [v]) :: stack))
  | .complete v (.item before :: stack), .closeBracket =>
      some (.complete (.array (before ++ [v])) stack)
  | .complete v (.field before key :: stack), .comma => some (.nextKey (before ++ [(key, v)]) stack)
  | .complete v (.field before key :: stack), .closeBrace =>
      some (.complete (.object (before ++ [(key, v)])) stack)
  | _, _ => none

/-- Goes on with several tokens. -/
def run (s : State) (toks : List Token) : Option State := toks.foldlM step s

/-- The value with the given tokens. -/
def parse? (toks : List Token) : Option Value :=
  match run (.value []) toks with
  | some (.complete v []) => some v
  | _ => none

/-- The value of a JSON document. -/
def read? (text : List Char) : Option Value := (lex text).bind parse?

/-! ### The tokens that the reader went through -/

/-- Some token rows with a comma behind each. -/
def listed (rows : List (List Token)) : List Token := rows.flatMap (· ++ [.comma])

/-- What was read of an open list or object, up to the place where its next value stands. -/
def Frame.tokens : Frame → List Token
  | .item before => .openBracket :: listed (before.map Value.tokens)
  | .field before key => .openBrace :: listed (before.map fieldToken) ++ [.string key, .colon]

/-- What was read of all that is still open. The innermost part comes first on the stack, and was read
last. -/
def stackTokens : List Frame → List Token
  | [] => []
  | frame :: rest => stackTokens rest ++ frame.tokens

/-- What was read before a state. -/
def State.tokens : State → List Token
  | .value stack => stackTokens stack
  | .firstItem stack => stackTokens stack ++ [.openBracket]
  | .firstKey stack => stackTokens stack ++ [.openBrace]
  | .nextKey before stack => stackTokens stack ++ .openBrace :: listed (before.map fieldToken)
  | .colon before key stack =>
      stackTokens stack ++ .openBrace :: listed (before.map fieldToken) ++ [.string key]
  | .complete v stack => stackTokens stack ++ v.tokens

theorem listed_concat (rows : List (List Token)) (row : List Token) :
    listed (rows ++ [row]) = listed rows ++ row ++ [.comma] := by
  simp [listed]

/-- Between rows stand the commas that are listed, less the one behind the last row. -/
theorem intercalate_concat (rows : List (List Token)) (row : List Token) :
    [.comma].intercalate (rows ++ [row]) = listed rows ++ row := by
  induction rows with
  | nil => simp [listed]
  | cons first rest ih =>
    rw [List.cons_append, List.intercalate_cons_of_ne_nil (by simp), ih]
    simp [listed]

/-- The tokens of an array, when all items but the last have been read. -/
theorem tokens_array_concat (before : List Value) (v : Value) :
    (Value.array (before ++ [v])).tokens
      = .openBracket :: listed (before.map Value.tokens) ++ v.tokens ++ [.closeBracket] := by
  rw [Value.tokens, itemTokens_eq_map, List.map_append, List.map_singleton, intercalate_concat]
  rfl

/-- The tokens of an object, when all fields but the last have been read. -/
theorem tokens_object_concat (before : List (String × Value)) (key : String) (v : Value) :
    (Value.object (before ++ [(key, v)])).tokens
      = .openBrace :: listed (before.map fieldToken) ++ .string key :: .colon :: v.tokens
        ++ [.closeBrace] := by
  rw [Value.tokens, fieldTokens_eq_map, List.map_append, List.map_singleton, intercalate_concat]
  rfl

/-- The token that begins a value is the first in hand. -/
theorem start_tokens {stack : List Frame} {tok : Token} {s : State} (h : start stack tok = some s) :
    s.tokens = stackTokens stack ++ [tok] := by
  unfold start at h
  split at h <;> cases h <;> simp [State.tokens, Value.tokens]

/-- **A step adds its token** to what the reader has in hand. -/
theorem step_tokens {s s' : State} {tok : Token} (h : step s tok = some s') :
    s'.tokens = s.tokens ++ [tok] := by
  unfold step at h
  -- the goals are the equations of `step`, in their order
  split at h
  · exact start_tokens h
  · cases h
    simp [State.tokens, Value.tokens, itemTokens]
  · rw [start_tokens h]
    simp [State.tokens, stackTokens, Frame.tokens, listed]
  all_goals cases h
  · simp [State.tokens, Value.tokens, fieldTokens]
  · simp [State.tokens, listed]
  · simp [State.tokens]
  · simp [State.tokens, stackTokens, Frame.tokens]
  · simp [State.tokens, stackTokens, Frame.tokens, listed_concat]
  · simp [State.tokens, stackTokens, Frame.tokens, tokens_array_concat]
  · simp [State.tokens, stackTokens, Frame.tokens, listed_concat, fieldToken]
  · simp [State.tokens, stackTokens, Frame.tokens, tokens_object_concat]

/-- What the reader has in hand after a run is made of the tokens of the run. -/
theorem run_tokens {s s' : State} {toks : List Token} (h : run s toks = some s') :
    s'.tokens = s.tokens ++ toks := by
  induction toks generalizing s with
  | nil =>
    cases h
    rw [List.append_nil]
  | cons tok rest ih =>
    rw [run, List.foldlM_cons] at h
    obtain ⟨mid, hmid, hrest⟩ := Option.bind_eq_some_iff.mp h
    rw [ih hrest, step_tokens hmid, List.append_assoc, List.singleton_append]

/-! ### The tokens of a value -/

/-- A run goes on where the run before it ended. -/
theorem run_append {s mid : State} {toks : List Token} (h : run s toks = some mid) (rest : List Token) :
    run s (toks ++ rest) = run mid rest := by
  rw [run, List.foldlM_append]
  rw [run] at h
  rw [h]
  rfl

theorem intercalate_cons (row : List Token) (rows : List (List Token)) :
    [.comma].intercalate (row :: rows) = row ++ rows.flatMap (.comma :: ·) := by
  induction rows generalizing row with
  | nil => simp
  | cons next rest ih =>
    rw [List.intercalate_cons_cons, ih, List.flatMap_cons, List.append_assoc]
    rfl

/-- The reader gets the value from its tokens, whatever is open around it. -/
def Value.Runs (v : Value) : Prop := ∀ stack, run (.value stack) v.tokens = some (.complete v stack)

/-- The first item of an array is read like the others. -/
theorem Value.Runs.firstItem {v : Value} (h : v.Runs) (stack : List Frame) :
    run (.firstItem stack) v.tokens = some (.complete v (.item [] :: stack)) := by
  rw [← h]
  cases v <;> simp [Value.tokens, run, step]

/-- Behind an item, the items that are left complete the array. -/
theorem run_items {rest : List Value} (h : ∀ item ∈ rest, item.Runs) (before : List Value) (v : Value)
    (stack : List Frame) :
    run (.complete v (.item before :: stack))
        ((rest.map Value.tokens).flatMap (.comma :: ·) ++ [.closeBracket])
      = some (.complete (.array (before ++ v :: rest)) stack) := by
  induction rest generalizing before v with
  | nil => rfl
  | cons next rest ih =>
    obtain ⟨hnext, hrest⟩ := List.forall_mem_cons.mp h
    have hread : run (.complete v (.item before :: stack)) (.comma :: next.tokens)
        = some (.complete next (.item (before ++ [v]) :: stack)) := hnext _
    rw [List.map_cons, List.flatMap_cons, List.append_assoc, run_append hread, ih hrest,
      List.append_assoc, List.singleton_append]

/-- Behind a field, the fields that are left complete the object. -/
theorem run_fields {rest : List (String × Value)} (h : ∀ field ∈ rest, field.2.Runs)
    (before : List (String × Value)) (key : String) (v : Value) (stack : List Frame) :
    run (.complete v (.field before key :: stack))
        ((rest.map fieldToken).flatMap (.comma :: ·) ++ [.closeBrace])
      = some (.complete (.object (before ++ (key, v) :: rest)) stack) := by
  induction rest generalizing before key v with
  | nil => rfl
  | cons next rest ih =>
    obtain ⟨hnext, hrest⟩ := List.forall_mem_cons.mp h
    have hread : run (.complete v (.field before key :: stack)) (.comma :: fieldToken next)
        = some (.complete next.2 (.field (before ++ [(key, v)]) next.1 :: stack)) := by
      rw [fieldToken]
      exact hnext _
    rw [List.map_cons, List.flatMap_cons, List.append_assoc, run_append hread, ih hrest,
      List.append_assoc, List.singleton_append]

/-- The reader gets an array if it gets its items. -/
theorem runs_array {items : List Value} (h : ∀ item ∈ items, item.Runs) : (Value.array items).Runs := by
  intro stack
  cases items with
  | nil => simp [Value.tokens, itemTokens, run, step, start]
  | cons first rest =>
    obtain ⟨hfirst, hrest⟩ := List.forall_mem_cons.mp h
    rw [Value.tokens, itemTokens_eq_map, List.map_cons, intercalate_cons]
    show run (.firstItem stack) ((first.tokens ++ _) ++ _) = _
    rw [List.append_assoc, run_append (hfirst.firstItem stack), run_items hrest]
    rfl

/-- The reader gets an object if it gets the values of its fields. -/
theorem runs_object {fields : List (String × Value)} (h : ∀ field ∈ fields, field.2.Runs) :
    (Value.object fields).Runs := by
  intro stack
  cases fields with
  | nil => simp [Value.tokens, fieldTokens, run, step, start]
  | cons first rest =>
    obtain ⟨hfirst, hrest⟩ := List.forall_mem_cons.mp h
    have hread : run (.firstKey stack) (fieldToken first)
        = some (.complete first.2 (.field [] first.1 :: stack)) := by
      rw [fieldToken]
      exact hfirst _
    rw [Value.tokens, fieldTokens_eq_map, List.map_cons, intercalate_cons]
    show run (.firstKey stack) ((fieldToken first ++ _) ++ _) = _
    rw [List.append_assoc, run_append hread, run_fields hrest]
    rfl

/-- **From the tokens of a value the reader gets the value.** -/
theorem Value.runs (v : Value) : v.Runs := by
  induction v with
  | number n => simp [Runs, Value.tokens, run, step, start]
  | bool b => simp [Runs, Value.tokens, run, step, start]
  | string s => simp [Runs, Value.tokens, run, step, start]
  | array items ih => exact runs_array ih
  | object fields ih => exact runs_object ih

/-! ### The values that are read -/

/-- **Tokens are read as the value that has them**, and other tokens are refused. -/
theorem parse?_eq_some_iff {toks : List Token} {v : Value} : parse? toks = some v ↔ v.tokens = toks := by
  constructor
  · intro h
    unfold parse? at h
    split at h
    · next v' hrun =>
      cases h
      exact run_tokens hrun
    · cases h
  · rintro rfl
    rw [parse?, v.runs]

/-- **A text is read as a value if and only if it is a document of that value.** -/
theorem read?_eq_some_iff {text : List Char} {v : Value} : read? text = some v ↔ Document v text := by
  rw [read?, Option.bind_eq_some_iff]
  constructor
  · rintro ⟨toks, hlex, hparse⟩
    rw [parse?_eq_some_iff] at hparse
    subst hparse
    exact lex_eq_some_iff.mp hlex
  · intro h
    exact ⟨v.tokens, lex_eq_some_iff.mpr h, parse?_eq_some_iff.mpr rfl⟩

end Json

end PioAssembler
