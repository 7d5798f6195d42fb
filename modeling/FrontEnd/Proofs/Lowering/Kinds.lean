import FrontEnd.Proofs.Lowering.Module
import FrontEnd.Proofs.Syntax.SourceTree

/-!
# Functions, operators and structs

Whether a function is an operator does not stand in the JSON of a module. It is found out from the name of the
function when that is read, left out when the name is written, and copied when the function is lowered. So it
comes down to one rule for names, that of `SpellsIdentifier`, and a module that is written and read again is
lowered to declarations of the same kinds.
-/

namespace FrontEnd

/-! ## Identifiers -/

namespace FunctionName

/-- A letter of ASCII. -/
def Letter (c : Char) : Prop := ('a' ≤ c ∧ c ≤ 'z') ∨ ('A' ≤ c ∧ c ≤ 'Z')

/-- A digit of ASCII. -/
def Digit (c : Char) : Prop := '0' ≤ c ∧ c ≤ '9'

/-- A letter, a digit or an underscore. -/
def WordChar (c : Char) : Prop := Letter c ∨ Digit c ∨ c = '_'

/-- A text is an identifier over its whole length: a letter, and then any number of letters, digits and
underscores. -/
def SpellsIdentifier (text : List Char) : Prop :=
  ∃ first rest, text = first :: rest ∧ Letter first ∧ ∀ c ∈ rest, WordChar c

theorem isAlpha_iff {c : Char} : c.isAlpha = true ↔ Letter c := by
  unfold Char.isAlpha Char.isLower Char.isUpper Letter
  simp only [Char.le_def, Bool.or_eq_true, Bool.and_eq_true, decide_eq_true_eq, ge_iff_le]
  exact or_comm

theorem isDigit_iff {c : Char} : c.isDigit = true ↔ Digit c := by
  simp only [Char.isDigit, Digit, Char.le_def, Bool.and_eq_true, decide_eq_true_eq, ge_iff_le]

theorem isIdentifier_iff {text : List Char} : isIdentifier text = true ↔ SpellsIdentifier text := by
  cases text with
  | nil => simp [isIdentifier, SpellsIdentifier]
  | cons first rest =>
    simp [isIdentifier, SpellsIdentifier, WordChar, Char.isAlphanum, isAlpha_iff, isDigit_iff, or_assoc,
      and_assoc]

/-- A captured name is an operator sign unless it is an identifier. -/
theorem IsCaptured.isOperator_eq_false_iff {f : FunctionName} (h : f.IsCaptured) :
    f.isOperator = false ↔ SpellsIdentifier f.name.toList := by
  rw [h, ← isIdentifier_iff]
  simp [capture]

theorem letter_iff {c : Char} :
    Letter c ↔ (97 ≤ c.toNat ∧ c.toNat ≤ 122) ∨ (65 ≤ c.toNat ∧ c.toNat ≤ 90) := Iff.rfl

theorem digit_iff {c : Char} : Digit c ↔ 48 ≤ c.toNat ∧ c.toNat ≤ 57 := Iff.rfl

theorem WordChar.toNat_lt {c : Char} (h : WordChar c) : c.toNat < 128 := by
  rcases h with h | h | rfl
  · rw [letter_iff] at h
    omega
  · rw [digit_iff] at h
    omega
  · decide

theorem not_wordChar_lineFeed : ¬ WordChar '\n' := by
  simp [WordChar, letter_iff, digit_iff]

theorem not_letter_of_digit_or_underscore {c : Char} (h : Digit c ∨ c = '_') : ¬ Letter c := by
  rw [letter_iff]
  rcases h with h | rfl
  · rw [digit_iff] at h
    omega
  · decide

theorem SpellsIdentifier.wordChar {text : List Char} (h : SpellsIdentifier text) :
    ∀ c ∈ text, WordChar c := by
  obtain ⟨first, rest, rfl, hfirst, hrest⟩ := h
  exact List.forall_mem_cons.mpr ⟨.inl hfirst, hrest⟩

/-- What ends with a line feed, holds a character beyond ASCII or begins with a digit or an underscore is no
identifier. -/
theorem not_spellsIdentifier {text : List Char}
    (h : text.getLast? = some '\n' ∨ (∃ c ∈ text, 128 ≤ c.toNat) ∨
      ∃ c, text.head? = some c ∧ (Digit c ∨ c = '_')) :
    ¬ SpellsIdentifier text := by
  intro hspells
  rcases h with hlast | ⟨c, hc, hbeyond⟩ | ⟨c, hhead, hc⟩
  · exact not_wordChar_lineFeed (hspells.wordChar _ (List.mem_of_getLast? hlast))
  · exact absurd (hspells.wordChar c hc).toNat_lt (Nat.not_lt.mpr hbeyond)
  · obtain ⟨first, rest, rfl, hfirst, -⟩ := hspells
    obtain rfl : first = c := Option.some.inj hhead
    exact not_letter_of_digit_or_underscore hc hfirst

end FunctionName

/-! ## Kinds of declarations -/

/-- Whether something is a struct, whether it is a function, and whether it is an operator. -/
def Definition.flags (d : Definition) : Bool × Bool × Bool := (d.isStruct, d.isFunction, d.isOperator)

namespace Module

/-- The declarations that a module has been lowered to are flagged as its own ones are: a struct is that
alone, and a function is an operator unless its name is an identifier. -/
structure Flagged (m : Module) (l : Lowered) : Prop where
  length : l.declarations.length = m.declared.length
  struct : ∀ (k : Nat) (s : StructDecl), m.declared[k]? = some (.ofStruct s) →
    ∃ d, l.declarations[k]? = some d ∧ d.name = s.name ∧ d.definition.isStruct = true ∧
      d.definition.isFunction = false ∧ d.definition.isOperator = false
  function : ∀ (k : Nat) (f : FunctionDecl), m.declared[k]? = some (.ofFunction f) →
    ∃ d, l.declarations[k]? = some d ∧ d.name = f.name.name ∧ d.definition.isStruct = false ∧
      d.definition.isFunction = true ∧
      (d.definition.isOperator = false ↔ FunctionName.SpellsIdentifier f.name.name.toList)

/-- A module that JSON is read as, by itself or as a source file. -/
inductive ReadFrom (json : Json) (m : Module) : Prop
  | alone (enclosed : Bool) (room : Nat) (h : decode enclosed room json = some m)
  | file (enclosed : Bool) (room : Nat) (h : decode enclosed room json = some (SourceTree.module m))

theorem ReadFrom.isCaptured {json : Json} {m : Module} (h : m.ReadFrom json) : m.IsCaptured := by
  cases h with
  | alone enclosed room h => exact Module.readsBack.captured_of_decode enclosed room json m h
  | file enclosed room h => exact SourceTree.readsBack.captured_of_decode enclosed room json _ h

variable {m : Module} {file : String} {ids : IdSource} {symbols : SymbolTable} {l : Lowered}

theorem IsCaptured.of_mem_declared (h : m.IsCaptured) {f : FunctionDecl}
    (hf : .ofFunction f ∈ m.declared) : f.name.IsCaptured := by
  obtain ⟨part, hpart, hmem⟩ := List.mem_flatMap.mp hf
  cases part with
  | imports => cases hmem
  | structs _ items => simp [Part.declared] at hmem
  | functions _ items =>
    obtain ⟨f', hf', heq⟩ := List.mem_map.mp hmem
    obtain rfl : f' = f := SourceDecl.ofFunction.inj heq
    exact h _ hpart f' hf'

theorem IsCaptured.flagged (h : m.IsCaptured) (hok : (m.lowerInto file ids symbols).result = .ok l) :
    m.Flagged l := by
  rw [lowerInto_result, settle_eq_ok_iff] at hok
  obtain ⟨-, rfl⟩ := hok
  exact {
    length := List.length_mapIdx
    struct := fun k s hs => by
      refine ⟨s.declaration (ids.nth k), ?_, rfl, rfl, rfl, rfl⟩
      rw [List.getElem?_mapIdx, hs, Option.map_some]
      rfl
    function := fun k f hf => by
      have hname := h.of_mem_declared (List.mem_of_getElem? hf)
      refine ⟨f.declaration (ids.nth k), ?_, rfl, rfl, rfl, hname.isOperator_eq_false_iff⟩
      rw [List.getElem?_mapIdx, hf, Option.map_some]
      rfl }

/-- A module is lowered to declarations with the flags of those that are given. -/
def KeepsFlags (m : Module) (file : String) (ids : IdSource) (symbols : SymbolTable) (l : Lowered) : Prop :=
  ∃ l', (m.lowerInto file ids symbols).result = .ok l' ∧
    l'.declarations.map (·.definition.flags) = l.declarations.map (·.definition.flags)

/-- **Functions and operators.** If a module that was read is lowered, its functions are operators exactly where
their names are no identifiers over their whole length, and its structs never are. Writing the module and
reading it again before it is lowered changes none of the flags. -/
theorem flagged_of_readFrom {json : Json} (hread : m.ReadFrom json)
    (hok : (m.lowerInto file ids symbols).result = .ok l) :
    m.Flagged l ∧
      (∀ text : List Char, (text.getLast? = some '\n' ∨ (∃ c ∈ text, 128 ≤ c.toNat) ∨
          ∃ c, text.head? = some c ∧ (FunctionName.Digit c ∨ c = '_')) →
        ¬ FunctionName.SpellsIdentifier text) ∧
      ∀ enclosed room,
        ((encode m).depth ≤ room →
          ∃ m' : Module, decode enclosed room (encode m) = some m' ∧ m'.KeepsFlags file ids symbols l) ∧
        ((encode (SourceTree.module m)).depth ≤ room →
          ∃ m', decode enclosed room (encode (SourceTree.module m)) = some (SourceTree.module m') ∧
            m'.KeepsFlags file ids symbols l) := by
  have hcaptured := hread.isCaptured
  have hkeeps : m.KeepsFlags file ids symbols l := ⟨l, hok, rfl⟩
  refine ⟨hcaptured.flagged hok, fun _ => FunctionName.not_spellsIdentifier, fun enclosed room => ⟨?_, ?_⟩⟩
  · intro hroom
    exact ⟨m, readsBack.decode_encode m hcaptured enclosed room hroom, hkeeps⟩
  · intro hroom
    exact ⟨m, SourceTree.readsBack.decode_encode (.module m) hcaptured enclosed room hroom, hkeeps⟩

/-- A name that is an identifier, names that look like one, and an identifier again. -/
def sampleNames : List String := ["sum", "sum\n", "été", "_sum", "2x", "to_2"]

/-- Functions of these names in front of a struct. -/
def functionsSample : Module where
  parts := [
    .functions {} (sampleNames.map fun name => { name := .capture name, body := .constexpr {} [] }),
    .structs {} [{ name := "sum" }]]

/-- A source file with this module. -/
def functionsJson : Json :=
  .object [
    ("kind", .string "Module"),
    ("parts", .array [
      .object [
        ("part", .string "Function"),
        ("functions", .array (sampleNames.map fun name => .object [
          ("definition", .array [.string "Constexpr", .array [], .array []]), ("name", .string name)]))],
      .object [("part", .string "Struct"), ("structs", .array [.object [("name", .string "sum")]])]])]

theorem flagged_functionsSample :
    functionsSample.ReadFrom functionsJson ∧
      ∃ l, (functionsSample.lowerInto "main" ⟨7⟩ .empty).result = .ok l ∧
        l.declarations.map (·.definition.isOperator) = [false, true, true, true, true, false, false] ∧
        functionsSample.Flagged l ∧
        ∃ m' : Module, decode false nestingLimit (encode functionsSample) = some m' ∧
          m'.KeepsFlags "main" ⟨7⟩ .empty l := by
  have hread : functionsSample.ReadFrom functionsJson := .file false nestingLimit (by rfl)
  refine ⟨hread, _, lowerInto_result _ _ _ _, by decide, ?_⟩
  have hflagged := flagged_of_readFrom hread (lowerInto_result functionsSample "main" ⟨7⟩ .empty)
  exact ⟨hflagged.1, (hflagged.2.2 false nestingLimit).1 (by decide)⟩

end Module

end FrontEnd
