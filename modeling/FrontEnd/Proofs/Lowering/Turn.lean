import FrontEnd.Lowering.Session
import FrontEnd.Proofs.Lowering.Stop

/-!
# Turns of a session

`Session.turn` takes one step of a session and keeps what it answers, a turn. `Turn.taken` lists the
identifiers that a turn has taken, and `Turn.call?` is the lowering that a turn has added to the symbol table,
if it has. What a turn does to the source of identifiers is one of two things (`counts_turn`), what it does to
the symbols one of three (`binds_turn`); nothing else is used of a turn later.
-/

namespace FrontEnd.Session

/-! ## Steps and turns -/

/-- What is asked of a session. -/
inductive Step where
  | takeId
  | resetIds
  | clearSymbols
  | lowerInto (file : String) (m : Module)
  | lower (file : String) (m : Module)
  | check (file : String) (tree : SourceTree)

/-- What was asked of a session, and what it answered. -/
inductive Turn where
  | tookId (id : UInt64)
  | resetIds
  | clearedSymbols
  | loweredInto (file : String) (m : Module) (run : LoweringRun)
  | lowered (file : String) (m : Module) (run : LoweringRun)
  | checked (file : String) (tree : SourceTree) (run : CheckRun)

/-- Takes a step. -/
def turn (s : Session) : Step → Turn × Session
  | .takeId => (.tookId s.takeId.1, s.takeId.2)
  | .resetIds => (.resetIds, s.resetIds)
  | .clearSymbols => (.clearedSymbols, s.clearSymbols)
  | .lowerInto file m => (.loweredInto file m (s.lowerInto file m).1, (s.lowerInto file m).2)
  | .lower file m => (.lowered file m (s.lower file m).1, (s.lower file m).2)
  | .check file tree => (.checked file tree (s.check file tree).1, (s.check file tree).2)

/-- Takes steps one after the other. -/
def play (s : Session) : List Step → List Turn × Session
  | [] => ([], s)
  | step :: rest => ((s.turn step).1 :: ((s.turn step).2.play rest).1, ((s.turn step).2.play rest).2)

theorem play_concat (s : Session) (steps : List Step) (step : Step) :
    s.play (steps ++ [step])
      = ((s.play steps).1 ++ [((s.play steps).2.turn step).1], ((s.play steps).2.turn step).2) := by
  induction steps generalizing s with
  | nil => rfl
  | cons first rest ih => rw [List.cons_append, play, ih, play, List.cons_append]

/-- A module that has been lowered into the symbol table of a session. -/
structure Call where
  file : String
  module : Module
  lowered : Lowered

namespace Call

/-- The identifiers of the declarations that a call has returned. -/
def ids (c : Call) : List UInt64 := c.lowered.declarations.map Declaration.id

/-- The places of the declarations in the source. -/
def locations (c : Call) : List Location := c.module.declared.map (SourceDecl.locationIn c.file)

/-- The location of the declaration that has been given an identifier by a call. -/
def location? (c : Call) (id : UInt64) : Option Location := (c.ids.zip c.locations).lookup id

end Call

namespace Turn

def isReset : Turn → Bool
  | .resetIds => true
  | _ => false

def isClear : Turn → Bool
  | .clearedSymbols => true
  | _ => false

/-- The identifiers that a turn has taken, in their order. -/
def taken : Turn → List UInt64
  | .tookId id => [id]
  | .resetIds => []
  | .clearedSymbols => []
  | .loweredInto _ _ run => givenIds run.log
  | .lowered _ _ run => givenIds run.log
  | .checked _ _ run => givenIds run.log

/-- What a turn has lowered, with or without the symbol table of the session. -/
def lowered? : Turn → Option Lowered
  | .loweredInto _ _ run => run.result.toOption
  | .lowered _ _ run => run.result.toOption
  | _ => none

/-- The call that a turn was, if its module has been lowered. -/
def call? : Turn → Option Call
  | .loweredInto file m run => run.result.toOption.map fun lowered => { file, module := m, lowered }
  | _ => none

theorem isReset_of_call? {t : Turn} {c : Call} (h : t.call? = some c) : t.isReset = false := by
  cases t with
  | resetIds => cases h
  | _ => rfl

end Turn

/-! ## What a turn does -/

variable {s : Session}

/-- What a turn makes of a source of identifiers. -/
inductive Counts (ids : IdSource) (t : Turn) (ids' : IdSource) : Prop
  | reset (hreset : t.isReset = true) (hids : ids' = {})
  | skip (k : Nat) (hreset : t.isReset = false) (htaken : t.taken = (List.range k).map ids.nth)
    (hids : ids' = ids.skip k)

/-- What a turn makes of the symbols of a session. -/
inductive Binds (s : Session) (t : Turn) (symbols' : SymbolTable) : Prop
  | clear (hclear : t.isClear = true) (hsymbols : symbols' = .empty)
  | keep (hclear : t.isClear = false) (hcall : t.call? = none) (hsymbols : symbols' = s.symbols)
  | extend (c : Call) (hclear : t.isClear = false) (hcall : t.call? = some c) (hids : c.ids = t.taken)
    (htaken : t.taken = (List.range c.locations.length).map s.ids.nth)
    (hsymbols : symbols' = s.symbols.extend (.record .empty s.ids c.locations))

theorem givenIds_check (tree : SourceTree) (file : String) (ids : IdSource) :
    ∃ k, (tree.check file ids).ids = ids.skip k ∧
      givenIds (tree.check file ids).log = (List.range k).map ids.nth := by
  cases tree with
  | configuration c => exact ⟨0, ids.skip_zero.symm, rfl⟩
  | module m =>
    have hids := m.ids_lowerInto file ids .empty
    have hgiven := m.givenIds_lowerInto file ids .empty
    refine ⟨m.declaredBeforeFlaw.length, ?_⟩
    unfold SourceTree.check Module.lower
    simp only
    split <;> rename_i hrun <;> rw [hrun] at hids hgiven
    · refine ⟨hids, ?_⟩
      rw [givenIds_append, hgiven]
      exact List.append_nil _
    · exact ⟨hids, hgiven⟩

theorem counts_turn (s : Session) (step : Step) :
    Counts s.ids (s.turn step).1 (s.turn step).2.ids := by
  cases step with
  | takeId => exact .skip 1 rfl (by simp [turn, Turn.taken, takeId]) s.ids.skip_one.symm
  | resetIds => exact .reset rfl rfl
  | clearSymbols => exact .skip 0 rfl rfl s.ids.skip_zero.symm
  | lowerInto file m =>
    exact .skip _ rfl (m.givenIds_lowerInto file s.ids s.symbols) (m.ids_lowerInto file s.ids s.symbols)
  | lower file m =>
    exact .skip _ rfl (m.givenIds_lowerInto file s.ids .empty) (m.ids_lowerInto file s.ids .empty)
  | check file tree =>
    obtain ⟨k, hids, hgiven⟩ := givenIds_check tree file s.ids
    exact .skip k rfl hgiven hids

/-- The declarations of a lowered module carry the identifiers that have been taken for it. -/
theorem map_id_of_result (m : Module) (file : String) (ids : IdSource) (symbols : SymbolTable)
    {l : Lowered} (hok : (m.lowerInto file ids symbols).result = .ok l) :
    m.flaws = [] ∧ l.declarations.map Declaration.id = (List.range m.declared.length).map ids.nth := by
  rw [Module.lowerInto_result, settle_eq_ok_iff] at hok
  obtain ⟨hflaws, rfl⟩ := hok
  refine ⟨hflaws, ?_⟩
  apply List.ext_getElem
  · simp
  · intro k hk hk'
    simp

theorem binds_turn (s : Session) (step : Step) : Binds s (s.turn step).1 (s.turn step).2.symbols := by
  cases step with
  | takeId => exact .keep rfl rfl rfl
  | resetIds => exact .keep rfl rfl rfl
  | clearSymbols => exact .clear rfl rfl
  | lower file m => exact .keep rfl rfl rfl
  | check file tree => exact .keep rfl rfl rfl
  | lowerInto file m =>
    have hgiven := m.givenIds_lowerInto file s.ids s.symbols
    cases hf : m.flaws with
    | nil =>
      obtain ⟨log, hrun⟩ := m.lowerInto_of_flaws_eq_nil file s.ids s.symbols hf
      have hids := (map_id_of_result m file s.ids s.symbols (congrArg LoweringRun.result hrun)).2
      rw [m.declaredBeforeFlaw_of_flaws_eq_nil hf] at hgiven
      have htaken : givenIds (m.lowerInto file s.ids s.symbols).log
          = (List.range (m.declared.map (SourceDecl.locationIn file)).length).map s.ids.nth := by
        rw [List.length_map]
        exact hgiven
      refine .extend ⟨file, m, _⟩ rfl ?_ (hids.trans hgiven.symm) htaken (congrArg LoweringRun.symbols hrun)
      show ((m.lowerInto file s.ids s.symbols).result.toOption.map _) = _
      rw [hrun]
      rfl
    | cons flaw more =>
      obtain ⟨hresult, hsymbols⟩ := m.lowerInto_of_flaws_eq_cons file s.ids s.symbols hf
      refine .keep rfl ?_ hsymbols
      show ((m.lowerInto file s.ids s.symbols).result.toOption.map _) = _
      rw [hresult]
      rfl

/-- What a turn has lowered carries the identifiers that the turn has taken. -/
theorem map_id_of_lowered? (step : Step) {l : Lowered} (h : (s.turn step).1.lowered? = some l) :
    l.declarations.map Declaration.id = (s.turn step).1.taken := by
  have hids : ∀ (m : Module) (file : String) (symbols : SymbolTable),
      (m.lowerInto file s.ids symbols).result.toOption = some l →
        l.declarations.map Declaration.id = givenIds (m.lowerInto file s.ids symbols).log := by
    intro m file symbols hl
    have hok : (m.lowerInto file s.ids symbols).result = .ok l := by
      cases hr : (m.lowerInto file s.ids symbols).result with
      | ok l' => rw [hr] at hl; exact congrArg Except.ok (Option.some.inj hl)
      | error e => rw [hr] at hl; cases hl
    obtain ⟨hflaws, hids⟩ := map_id_of_result m file s.ids symbols hok
    rw [m.givenIds_lowerInto, m.declaredBeforeFlaw_of_flaws_eq_nil hflaws]
    exact hids
  cases step with
  | lowerInto file m => exact hids m file s.symbols h
  | lower file m => exact hids m file .empty h
  | takeId => cases h
  | resetIds => cases h
  | clearSymbols => cases h
  | check file tree => cases h

end FrontEnd.Session
