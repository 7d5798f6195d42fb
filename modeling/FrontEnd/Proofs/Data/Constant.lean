import FrontEnd.Data.Constant
import Mathlib.Data.List.Basic

/-!
# Names of constants

A constant keeps two names, and an assignment of one name gives it an empty one in front. The name of a constant
tells both of them (`Constant.name_inj`); what an assignment gives does not tell the assignment, for an empty
name in front of another one may also be written (`Assignment.names_eq_iff`). Such an assignment is taken for
one of its second name alone.
-/

namespace FrontEnd

namespace Assignment

variable {a b : Assignment} {c d : Constant}

theorem result_tree_of_constant (h : a.constant.result = .ok c) :
    a.value.tree.result = .ok c.values ∧ (c.firstName, c.secondName) = a.names := by
  rw [constant] at h
  rcases hnames : a.names with ⟨firstName, secondName⟩
  rcases htree : a.value.tree with ⟨log, result⟩
  simp only [hnames, htree] at h
  split at h
  · cases h
  · cases result with
    | error e => cases h
    | ok values =>
      obtain rfl := Except.ok.inj h
      exact ⟨rfl, rfl⟩

/-! ## Names as they are written -/

/-- The name of an assignment as it is written: one name, or two with a dot between them. -/
def writtenName (a : Assignment) : String :=
  match a.secondName with
  | some second => a.firstName ++ "." ++ second
  | none => a.firstName

/-- There is a second name, and nothing in front of it. -/
def LacksFirstName (a : Assignment) : Prop := a.firstName = "" ∧ a.secondName ≠ none

/-- There is no dot in a name. -/
def Undotted (a : Assignment) : Prop :=
  '.' ∉ a.firstName.toList ∧ ∀ second ∈ a.secondName, '.' ∉ second.toList

def SameNames (a b : Assignment) : Prop := a.firstName = b.firstName ∧ a.secondName = b.secondName

/-- One assignment has an empty name in front of the only name of another one. -/
def TakenFor (a b : Assignment) : Prop :=
  a.firstName = "" ∧ a.secondName = some b.firstName ∧ b.secondName = none

theorem TakenFor.lacksFirstName (h : a.TakenFor b) : a.LacksFirstName := ⟨h.1, by simp [h.2.1]⟩

/-- What is lost of the names that are written. -/
theorem names_eq_iff : a.names = b.names ↔ a.SameNames b ∨ a.TakenFor b ∨ b.TakenFor a := by
  unfold names SameNames TakenFor
  cases ha : a.secondName with
  | none =>
    cases hb : b.secondName with
    | none => simp
    | some second =>
      simp only [Prod.mk.injEq, reduceCtorEq, and_false, false_or, Option.some.injEq, and_true]
      exact and_congr eq_comm eq_comm
  | some first =>
    cases hb : b.secondName with
    | none => simp
    | some second => simp

/-- The names of a constant have the characters of those that are written. -/
theorem mem_names_iff (x : Char) :
    (x ∈ a.names.1.toList ∨ x ∈ a.names.2.toList) ↔
      x ∈ a.firstName.toList ∨ ∃ second ∈ a.secondName, x ∈ second.toList := by
  rw [names]
  cases a.secondName <;> simp

theorem Undotted.names (h : a.Undotted) : '.' ∉ a.names.1.toList ∧ '.' ∉ a.names.2.toList := by
  rw [← not_or, mem_names_iff]
  rintro (hfirst | ⟨second, hsecond, hdot⟩)
  · exact h.1 hfirst
  · exact h.2 second hsecond hdot

end Assignment

/-! ## Names of constants -/

namespace Constant

variable {c d : Constant}

theorem name_of_eq_empty (h : c.firstName = "") : c.name = c.secondName := by
  rw [name, h]
  rfl

theorem name_of_ne_empty (h : c.firstName ≠ "") : c.name = c.firstName ++ "." ++ c.secondName := by
  have hne : c.firstName.isEmpty = false := by simpa using h
  rw [name, hne]
  rfl

/-- A name in front shows by the dot behind it. -/
theorem name_ne_name (hc : '.' ∉ c.secondName.toList) (hempty : c.firstName = "") (hne : d.firstName ≠ "") :
    c.name ≠ d.name := by
  intro h
  rw [name_of_eq_empty hempty, name_of_ne_empty hne] at h
  apply hc
  rw [h]
  simp

/-- The name of a constant tells both of its names, if there is no dot in them. -/
theorem name_inj (hc : '.' ∉ c.firstName.toList ∧ '.' ∉ c.secondName.toList)
    (hd : '.' ∉ d.firstName.toList ∧ '.' ∉ d.secondName.toList) :
    c.name = d.name ↔ (c.firstName, c.secondName) = (d.firstName, d.secondName) := by
  rw [Prod.mk.injEq]
  by_cases hcempty : c.firstName = ""
  · by_cases hdempty : d.firstName = ""
    · rw [name_of_eq_empty hcempty, name_of_eq_empty hdempty, hcempty, hdempty]
      simp
    · have hne := name_ne_name hc.2 hcempty hdempty
      simp [hne, hcempty, Ne.symm hdempty]
  · by_cases hdempty : d.firstName = ""
    · have hne := name_ne_name hd.2 hdempty hcempty
      simp [hne.symm, hdempty, hcempty]
    · rw [name_of_ne_empty hcempty, name_of_ne_empty hdempty, ← String.toList_inj]
      simp [List.append_cons_inj_of_notMem hc.1 hc.2, String.toList_inj]

end Constant

namespace Assignment

variable {a b : Assignment} {c d : Constant}

theorem name_eq_writtenName_iff (h : a.constant.result = .ok c) :
    c.name = a.writtenName ↔ ¬ a.LacksFirstName := by
  have hnames := (result_tree_of_constant h).2
  unfold names at hnames
  unfold writtenName LacksFirstName
  cases hsecond : a.secondName with
  | none =>
    obtain ⟨hfirst, hname⟩ : c.firstName = "" ∧ c.secondName = a.firstName := by simpa [hsecond] using hnames
    simp [Constant.name_of_eq_empty hfirst, hname]
  | some second =>
    obtain ⟨hfirst, hname⟩ : c.firstName = a.firstName ∧ c.secondName = second := by
      simpa [hsecond] using hnames
    by_cases hempty : a.firstName = ""
    · rw [Constant.name_of_eq_empty (hfirst.trans hempty), hname, hempty, ← String.toList_inj]
      simp
    · rw [Constant.name_of_ne_empty (hfirst ▸ hempty), hfirst, hname]
      simp [hempty]

/-- **Names of constants.** The name of a constant is the one that is written, unless an empty name is written
in front of another one. Two constants whose names are written without dots have the same name if these are the
same, and else only if one of them is taken for the other one in this way. -/
theorem name_tells_names_iff (ha : a.constant.result = .ok c) (hb : b.constant.result = .ok d) :
    (c.name = a.writtenName ↔ ¬ a.LacksFirstName) ∧
      (a.Undotted → b.Undotted →
        (c.name = d.name ↔ a.SameNames b ∨ a.TakenFor b ∨ b.TakenFor a) ∧
        (¬ a.LacksFirstName → ¬ b.LacksFirstName → (c.name = d.name ↔ a.SameNames b))) := by
  have hiff : a.Undotted → b.Undotted →
      (c.name = d.name ↔ a.SameNames b ∨ a.TakenFor b ∨ b.TakenFor a) := by
    intro hundotted hundotted'
    have hc := hundotted.names
    have hd := hundotted'.names
    rw [← (result_tree_of_constant ha).2] at hc
    rw [← (result_tree_of_constant hb).2] at hd
    rw [Constant.name_inj hc hd, (result_tree_of_constant ha).2, (result_tree_of_constant hb).2, names_eq_iff]
  refine ⟨name_eq_writtenName_iff ha, fun hundotted hundotted' => ?_⟩
  refine ⟨hiff hundotted hundotted', fun hfirst hfirst' => ?_⟩
  rw [hiff hundotted hundotted']
  exact or_iff_left fun htaken =>
    htaken.elim (fun h => hfirst h.lacksFirstName) fun h => hfirst' h.lacksFirstName

/-- A number under a name, or under two. -/
def hostSample (firstName : String) (secondName : Option String) : Assignment :=
  { firstName, secondName, value := .scalar .int {} "1" }

theorem name_tells_names_hostSample :
    ∃ c d, (hostSample "server" (some "host")).constant.result = .ok c ∧
      (hostSample "host" none).constant.result = .ok d ∧
      c.name = "server.host" ∧ c.name = (hostSample "server" (some "host")).writtenName ∧ c.name ≠ d.name := by
  have hserver : (hostSample "server" (some "host")).Undotted := by simp [hostSample, Undotted]
  have hhost : (hostSample "host" none).Undotted := by simp [hostSample, Undotted]
  refine ⟨_, _, rfl, rfl, rfl, ?_, ?_⟩
  · exact (name_tells_names_iff rfl (b := hostSample "host" none) rfl).1.mpr (by simp [LacksFirstName, hostSample])
  · refine mt ((name_tells_names_iff rfl rfl).2 hserver hhost).1.mp ?_
    simp [SameNames, TakenFor, hostSample]

/-- With an empty name in front, `.host` is taken for `host`. -/
theorem name_of_empty_firstName :
    ∃ c d, (hostSample "" (some "host")).constant.result = .ok c ∧
      (hostSample "host" none).constant.result = .ok d ∧
      (hostSample "" (some "host")).Undotted ∧ (hostSample "host" none).Undotted ∧
      (hostSample "" (some "host")).writtenName = ".host" ∧ c.name = "host" ∧ c.name = d.name ∧
      ¬ (hostSample "" (some "host")).SameNames (hostSample "host" none) := by
  have hempty : (hostSample "" (some "host")).Undotted := by simp [hostSample, Undotted]
  have hhost : (hostSample "host" none).Undotted := by simp [hostSample, Undotted]
  exact ⟨_, _, rfl, rfl, hempty, hhost, rfl, rfl, rfl, fun h => absurd h.1 (by decide)⟩

end Assignment

end FrontEnd
