import PioAssembler.Proofs.Source

/-!
# Refused statements leave no trace

A statement that fails leaves draft and log as they were (`Session.attempt_of_error`). So a run in which
some statements fail is the run of the other ones: `Session.after_accepted` compares where the two end,
`Session.answers_accepted` what they answer on the way.
-/

namespace PioAssembler

namespace Session

/-- The answers to some statements that are carried out one after the other. -/
def answers (s : Session) : List Statement → List (Except Failure Unit)
  | [] => []
  | st :: rest =>
      let (answer, s') := s.attempt st.run
      answer :: s'.answers rest

/-- A statement that fails leaves draft and log as they were. -/
theorem attempt_of_error {s : Session} {st : Statement} {failure : Failure}
    (h : (s.attempt st.run).1 = .error failure) : (s.attempt st.run).2 = s := by
  apply attempt_of_refused
  rw [accepts, h]
  rfl

theorem accepted_cons_of_accepts {s : Session} {st : Statement} (h : s.accepts st = true)
    (rest : List Statement) :
    s.accepted (st :: rest) = st :: (s.attempt st.run).2.accepted rest := by
  rw [accepted, if_pos h]

/-- A refused statement is left out, and the others are accepted as without it. -/
theorem accepted_cons_of_refused {s : Session} {st : Statement} (h : s.accepts st = false)
    (rest : List Statement) : s.accepted (st :: rest) = s.accepted rest := by
  rw [accepted, if_neg (by rw [h]; decide), attempt_of_refused h]

/-- The accepted statements are those that remain when the failing ones are deleted. -/
theorem accepted_eq_filter (s : Session) (source : List Statement) :
    s.accepted source = ((source.zip (s.answers source)).filter (·.2.isOk)).map Prod.fst := by
  induction source generalizing s with
  | nil => rfl
  | cons st rest ih =>
    rw [answers, List.zip_cons_cons, List.filter_cons]
    show _ = List.map Prod.fst (if s.accepts st = true then _ else _)
    cases h : s.accepts st with
    | true => rw [accepted_cons_of_accepts h, if_pos rfl, List.map_cons, ih]
    | false => rw [accepted_cons_of_refused h, if_neg (by decide), attempt_of_refused h, ih]

/-- **The accepted statements alone lead to the same session.** -/
theorem after_accepted (s : Session) (source : List Statement) :
    s.after (s.accepted source) = s.after source := by
  induction source generalizing s with
  | nil => rfl
  | cons st rest ih =>
    show _ = (s.attempt st.run).2.after rest
    cases h : s.accepts st with
    | true =>
      rw [accepted_cons_of_accepts h]
      exact ih _
    | false => rw [accepted_cons_of_refused h, attempt_of_refused h, ih]

/-- **Without the statements that fail none fails.** -/
theorem answers_accepted (s : Session) (source : List Statement) :
    ∀ answer ∈ s.answers (s.accepted source), answer = .ok () := by
  induction source generalizing s with
  | nil =>
    intro answer hanswer
    cases hanswer
  | cons st rest ih =>
    cases h : s.accepts st with
    | true =>
      rw [accepted_cons_of_accepts h, answers]
      intro answer hanswer
      rcases List.mem_cons.mp hanswer with rfl | hrest
      · exact attempt_of_accepts h
      · exact ih _ answer hrest
    | false =>
      rw [accepted_cons_of_refused h]
      exact ih s

end Session

namespace Source

/-- The answers to the statements of a source. -/
def answers (source : Source) : List (Except Failure Unit) := Session.answers {} source

/-- **A statement that fails leaves no trace**: neither in the draft nor in the log. So the statements
that remain when the failing ones are deleted all succeed, and they lead to the same draft, to the same log
and to the same end of building. -/
theorem refused_leaves_no_trace (source : Source) :
    (∀ (st : Statement) (failure : Failure), (source.session.attempt st.run).1 = .error failure →
        (source.session.attempt st.run).2 = source.session) ∧
      source.accepted = ((source.zip source.answers).filter (·.2.isOk)).map Prod.fst ∧
      (∀ answer ∈ answers source.accepted, answer = .ok ()) ∧
      session source.accepted = source.session ∧
      (session source.accepted).attempt Assembly.build = source.session.attempt Assembly.build := by
  have hsession : session source.accepted = source.session := Session.after_accepted {} source
  refine ⟨?_, Session.accepted_eq_filter {} source, Session.answers_accepted {} source, hsession, ?_⟩
  · intro st failure h
    exact Session.attempt_of_error h
  · rw [hsession]

end Source

end PioAssembler
