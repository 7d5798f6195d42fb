import FrontEnd.Proofs.CommandLine.Verdicts
import FrontEnd.Proofs.Lowering.Nodes

/-!
# Where diagnostics point

The diagnostic of an error has the position of the error for its location, if that has a line; without a line
there is a warning in the log instead (`LoweringError.pointsAt`). What is told of a node is told under the
position of the node, so the diagnostic of a module or an assignment that fails points at the first node at
fault (`Reported`), wherever in the tree this is. A configuration that is checked has no node at fault, and its
diagnostic points nowhere.
-/

namespace FrontEnd

/-! ## Errors and positions -/

namespace LoweringError

/-- What is shown and recorded of an error of the node at a position. -/
structure PointsAt (e : LoweringError) (p : Position) : Prop where
  level : e.diagnostic.level = .error
  /-- There is a location exactly if the position has a line. -/
  located : e.diagnostic.location.isSome ↔ 0 < p.line
  location : ∀ l ∈ e.diagnostic.location,
    l.fileName = p.filename ∧ l.line = p.line ∧ l.column = if p.column = 0 then 1 else p.column
  /-- A line that is missing is warned of once. -/
  warnings : (e.diagnosticLog.filter (·.level = .warn)).length = if p.line = 0 then 1 else 0
  /-- Nothing else is recorded. -/
  log : e.diagnosticLog = if p.line = 0 then [.lineMissing p.filename e.message] else []

/-- What is shown and recorded of an error of no node. -/
structure PointsNowhere (e : LoweringError) : Prop where
  level : e.diagnostic.level = .error
  location : e.diagnostic.location = none
  log : e.diagnosticLog = []

variable {e : LoweringError} {p : Position}

theorem pointsAt (h : e.position? = some p) : e.PointsAt p := by
  have hdiagnostic : e.diagnostic = if p.line = 0 then e.summary
      else e.summary.withLocation (.ofCounts p.filename p.line p.column) := by
    rw [diagnostic, h]
  have hlog : e.diagnosticLog = if p.line = 0 then [.lineMissing p.filename e.message] else [] := by
    rw [diagnosticLog, h]
  by_cases hline : p.line = 0
  · rw [if_pos hline] at hdiagnostic
    have hnone : e.diagnostic.location = none := by rw [hdiagnostic, e.location_summary]
    exact {
      level := e.level_diagnostic
      located := by simp [hnone, hline]
      location := by simp [hnone]
      warnings := by simp [hlog, hline, Event.level]
      log := hlog }
  · rw [if_neg hline] at hdiagnostic
    have hsome : e.diagnostic.location = some (.ofCounts p.filename p.line p.column) := by
      rw [hdiagnostic, Diagnostic.withLocation]
    exact {
      level := e.level_diagnostic
      located := by simp [hsome, UInt64.pos_iff_ne_zero, hline]
      location := by
        rw [hsome]
        rintro _ ⟨⟩
        exact ⟨rfl, Location.raise_of_ne_zero hline, rfl⟩
      warnings := by simp [hlog, hline]
      log := hlog }

theorem pointsNowhere (h : e.position? = none) : e.PointsNowhere where
  level := e.level_diagnostic
  location := by rw [diagnostic, h, e.location_summary]
  log := by rw [diagnosticLog, h]

end LoweringError

/-! ## Nodes and results -/

section Reported

variable {α β : Type} {nodes : List SyntaxNode}

/-- How the result of a walk over some nodes tells what is wrong with them: it is an error exactly if a node is
at fault, and the error points at the first one that is. -/
inductive Reported (nodes : List SyntaxNode) : Except LoweringError α → Prop
  | sound {a : α} (sound : ∀ node ∈ nodes, ¬ node.AtFault) : Reported nodes (.ok a)
  | fault {before after : List SyntaxNode} {node : SyntaxNode} {e : LoweringError}
      (split : nodes = before ++ node :: after) (sound : ∀ other ∈ before, ¬ other.AtFault)
      (fault : node.AtFault) (points : e.PointsAt node.position) : Reported nodes (.error e)

theorem reported_of_head? {r : Except LoweringError α}
    (h : ∀ e, r = .error e ↔ (nodes.flatMap SyntaxNode.errors).head? = some e) : Reported nodes r := by
  -- The first of all errors is the first error of the first node that has one.
  simp only [List.head?_flatMap] at h
  cases r with
  | ok a =>
    refine .sound fun node hnode => ?_
    have hnone : nodes.findSome? (fun node => node.errors.head?) = none :=
      Option.eq_none_iff_forall_ne_some.mpr fun e he => nomatch (h e).mpr he
    rw [← node.errors_eq_nil_iff, ← List.head?_eq_none_iff]
    exact List.findSome?_eq_none_iff.mp hnone node hnode
  | error e =>
    obtain ⟨before, node, after, hsplit, hfirst, hbefore⟩ := List.findSome?_eq_some_iff.mp ((h e).mp rfl)
    have hmem : e ∈ node.errors := List.mem_of_head? hfirst
    have hpoints := LoweringError.pointsAt (SyntaxNode.position?_of_mem_errors hmem)
    refine .fault hsplit (fun other hother => ?_) ?_ hpoints
    · rw [← other.errors_eq_nil_iff, ← List.head?_eq_none_iff]
      exact hbefore other hother
    · by_contra hsound
      rw [node.errors_eq_nil_iff.mpr hsound] at hmem
      cases hmem

theorem Reported.map {r : Except LoweringError α} (f : α → β) (h : Reported nodes r) :
    Reported nodes (r.map f) := by
  cases h with
  | sound hsound => exact .sound hsound
  | fault hsplit hsound hfault hpoints => exact .fault hsplit hsound hfault hpoints

end Reported

/-- **Failures and their nodes.** A module that is checked and an assignment that is to make a constant fail
exactly if one of their nodes is at fault, and the diagnostic points at the first one. A configuration always
fails the check, and the diagnostic points nowhere. -/
theorem failures_point_at_nodes :
    (∀ (m : Module) (file : String) (ids : IdSource),
      Reported m.nodes ((SourceTree.module m).check file ids).result) ∧
    (∀ (c : Configuration) (file : String) (ids : IdSource),
      ∃ e, ((SourceTree.configuration c).check file ids).result = .error e ∧ e.PointsNowhere) ∧
    ∀ a : Assignment, Reported a.nodes a.constant.result := by
  refine ⟨fun m file ids => ?_, fun c file ids => ⟨_, rfl, LoweringError.pointsNowhere rfl⟩, fun a => ?_⟩
  · rw [result_check_module]
    exact (reported_of_head? (m.lowerInto_eq_error_iff_head? file ids .empty)).map _
  · exact reported_of_head? a.constant_eq_error_iff_head?

/-- A number and two character literals inside groups, of which the second is empty. -/
def emptyCharSample : Assignment where
  position := { filename := "point.ddat", line := 1, column := 1 }
  firstName := "point"
  value := .group .list {} [.scalar .int {} "1", .group .struct {} [
    .scalar .char { filename := "point.ddat", line := 2, column := 5 } "'a'",
    .scalar .char { filename := "point.ddat", line := 3 } "''"]]

example : emptyCharSample.constant.result.mapError (·.diagnostic.location)
    = .error (some (.ofCounts "point.ddat" 3 1)) := by
  rfl

end FrontEnd
