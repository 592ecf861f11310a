import PioAssembler.Assembly.Run
import PioAssembler.Labels.Resolve
import PioAssembler.Program.Basic

/-!
# Building

`Assembly.build` gives every jump its target, checks the draft as a whole and turns it into a
`Program`; `assemble` does so for a source from start to end.
-/

namespace PioAssembler

namespace Assembly

/-- Turns the draft into a program; the draft itself stays as it is. -/
def build : Assembly Program := do
  let d ← draft
  if d.count = 0 then
    reject .emptyProgram
  if let some addr := d.firstUnsided? then
    reject (.missingSideSet addr)
  let resolution := d.labels.resolve d.words
  record resolution.events
  accept (resolution.check.mapError .rejected)
  let last ← accept ((Exact.sub d.count 1).mapError .trapped)
  let wrap := d.wrap.getD (UInt8.ofNat last)
  if d.effectiveWrapTarget > wrap ∨ d.count ≤ wrap.toNat then
    reject (.invalidWrap d.effectiveWrapTarget wrap d.count)
  record [.built d.count d.effectiveWrapTarget wrap]
  return {
    words := resolution.words
    wrapTarget := d.effectiveWrapTarget
    wrap
    sideSet := d.effectiveSideSet
    symbols := resolution.labels.symbols }

/-- The checks come in their order, and what was resolved is logged also if a later one fails. -/
theorem run_build (s : Session) :
    build.run s =
      if s.draft.count = 0 then .error (.rejected .emptyProgram) s
      else
        match s.draft.firstUnsided? with
        | some addr => .error (.rejected (.missingSideSet addr)) s
        | none =>
            let d := s.draft
            let resolution := d.labels.resolve d.words
            let resolved := s.log ++ resolution.events
            match resolution.check with
            | .error e => .error (.rejected e) ⟨d, resolved⟩
            | .ok () =>
                if d.effectiveWrapTarget > d.effectiveWrap ∨ d.count ≤ d.effectiveWrap.toNat then
                  .error (.rejected (.invalidWrap d.effectiveWrapTarget d.effectiveWrap d.count))
                    ⟨d, resolved⟩
                else
                  .ok ⟨resolution.words, d.effectiveWrapTarget, d.effectiveWrap, d.effectiveSideSet,
                      resolution.labels.symbols⟩
                    ⟨d, resolved ++ [.built d.count d.effectiveWrapTarget d.effectiveWrap]⟩ := by
  by_cases hzero : s.draft.count = 0
  · simp [build, hzero]
  · cases hside : s.draft.firstUnsided? with
    | some addr => simp [build, hzero, hside]
    | none =>
      cases hcheck : (s.draft.labels.resolve s.draft.words).check with
      | error e => simp [build, hzero, hside, hcheck]
      | ok u =>
        -- there is an instruction, so there is a last one
        have hlast : Exact.sub s.draft.count 1 = .ok (s.draft.count - 1) := if_pos (by omega)
        have hend : s.draft.wrap.getD (UInt8.ofNat (s.draft.count - 1)) = s.draft.effectiveWrap := rfl
        by_cases hwrap : s.draft.effectiveWrapTarget > s.draft.effectiveWrap ∨
            s.draft.count ≤ s.draft.effectiveWrap.toNat
        · simp [build, hzero, hside, hcheck, hlast, hend, hwrap]
        · simp [build, hzero, hside, hcheck, hlast, hend, hwrap, -bind_pure_comp]

end Assembly

/-- Carries out statements up to the first that fails, then builds. -/
def assemble (source : List Statement) : Assembly Program := do
  source.forM Statement.run
  Assembly.build

end PioAssembler
