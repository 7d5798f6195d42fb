import FrontEnd.Data.ValueTree
import FrontEnd.Proofs.Results
import FrontEnd.Proofs.Syntax.CharLiteral
import FrontEnd.Proofs.Tree.BreadthFirst
import FrontEnd.Proofs.Tree.Fresh

/-!
# The tree of a literal value

However deep its groups are nested, a group becomes a root with the scalars in it as leaves, and the first
scalar without a data value stops the reading. `Value.leaves` says which scalars these are; reading a value
is reading them one after the other (`Value.scalars_result`), and the store that is built from what they give
is a root with leaves (`NodeStore.isStar_foldl_addChild`).
-/

namespace FrontEnd

/-! ## A root and its leaves -/

/-- What a tree of a root and leaves answers. -/
structure Cursor.IsStar {α : Type} (c : Cursor α) (root : α) (values : List α) : Prop where
  value : c.value = root
  childValues : c.childValues = values
  leaves : ∀ d ∈ c.children, d.isLeaf = true
  length : c.length = 1 + values.length
  allData : c.allData = root :: values
  leftDepth : c.collect .leftDepth = c.allData
  leftBreadth : c.collect .leftBreadth = c.allData

namespace RoseTree

variable {α : Type}

theorem preorderAll_map_leaf (values : List α) : preorderAll (values.map leaf) = values := by
  induction values with
  | nil => rfl
  | cons v values ih => rw [List.map_cons, preorderAll, ih, leaf, preorder, preorderAll, List.singleton_append]

theorem flatMap_children_map_leaf (values : List α) : (values.map leaf).flatMap children = [] := by
  rw [List.flatMap_map, List.flatMap_eq_nil_iff]
  exact fun _ _ => rfl

/-- The levels of a root with leaves are the root and the leaves. -/
theorem collect_leftBreadth_star (root : α) (values : List α) :
    (node root (values.map leaf)).collect .leftBreadth = root :: values := by
  have hlevel : ∀ level : List (RoseTree α), nodes.walk .leftBreadth (.ofList level)
      = level.map value ++ nodes.walk .leftBreadth (.ofList (level.flatMap children)) := by
    intro level
    have hwalk : nodes.walk .leftBreadth (.ofList (level ++ [])) = _ :=
      nodes.walk_ofList_append rfl level []
    rwa [List.append_nil, List.nil_append] at hwalk
  have hnone : nodes.walk .leftBreadth (.ofList ([] : List (RoseTree α))) = [] :=
    nodes.walk_of_toList_eq_nil _ (Queue.toList_ofList [])
  rw [collect, Nodes.collect, hlevel, List.flatMap_singleton, hlevel]
  show root :: ((values.map leaf).map value
    ++ nodes.walk .leftBreadth (.ofList ((values.map leaf).flatMap children))) = root :: values
  rw [flatMap_children_map_leaf, hnone, List.append_nil, List.map_map]
  exact congrArg _ (List.map_id values)

end RoseTree

namespace NodeStore

variable {α : Type}

theorem foldl_addChild_eq_graftAll (values : List α) (s : NodeStore α) (i : Nat) :
    values.foldl (fun s v => s.addChild i v) s = s.graftAll i (values.map .leaf) := by
  induction values generalizing s with
  | nil => rfl
  | cons v values ih => rw [List.foldl_cons, ih, List.map_cons, graftAll, RoseTree.leaf, graft, graftAll]

/-- Children that are added to the root of a store of one node are leaves. -/
theorem isStar_foldl_addChild (root : α) (values : List α) :
    (Cursor.shared (values.foldl (fun s v => s.addChild 0 v) (singleton root)) (NodeStore.root _)).IsStar
      root values := by
  rw [foldl_addChild_eq_graftAll]
  have hgraft := graftedAt_graftAll (values.map .leaf) (singleton root) Nat.zero_lt_one
  have hshows : NodeStore.Shows _ 0 (.node root (values.map .leaf)) :=
    hgraft.shows (show (singleton root).Shows 0 (.leaf root) from ⟨rfl, trivial⟩)
  have hdata : ((singleton root).graftAll 0 (values.map .leaf)).allData = root :: values := by
    rw [allData_graftAll _ _ Nat.zero_lt_one, RoseTree.preorderAll_map_leaf]
    rfl
  have htree : (Cursor.shared _ ((singleton root).graftAll 0 (values.map .leaf)).root).subtree
      = .node root (values.map .leaf) := subtree_eq_of_shows _ _ hshows
  constructor
  · rw [Cursor.value_eq, htree]
    rfl
  · rw [Cursor.childValues_eq, htree]
    exact (List.map_map ..).trans (List.map_id values)
  · intro d hd
    have hmem : d.subtree ∈ values.map .leaf := by
      have hmap := List.mem_map_of_mem (f := Cursor.subtree) hd
      rwa [Cursor.map_subtree_children, htree] at hmap
    obtain ⟨v, -, hv⟩ := List.mem_map.mp hmem
    rw [Cursor.isLeaf, Cursor.childCount_eq, ← hv]
    rfl
  · show NodeStore.size _ = _
    rw [← length_allData, hdata, List.length_cons, Nat.add_comm]
  · exact hdata
  · rw [Cursor.collect_eq, htree, RoseTree.collect_leftDepth, RoseTree.preorder,
      RoseTree.preorderAll_map_leaf]
    exact hdata.symm
  · rw [Cursor.collect_eq, htree, RoseTree.collect_leftBreadth_star]
    exact hdata.symm

end NodeStore

/-! ## Scalars -/

namespace Value

mutual

/-- The scalars in a value, in the order of the source. The scalars of a group in it stand in its place. -/
def leaves : Value → List Value
  | .scalar kind position text => [.scalar kind position text]
  | .group _ _ members => leavesOfAll members

def leavesOfAll : List Value → List Value
  | [] => []
  | v :: rest => v.leaves ++ leavesOfAll rest

end

mutual

theorem exists_scalar_of_mem_leaves : ∀ {v leaf : Value}, leaf ∈ v.leaves →
    ∃ kind position text, leaf = .scalar kind position text
  | .scalar kind position text, _, h => ⟨kind, position, text, List.mem_singleton.mp h⟩
  | .group _ _ _, _, h => exists_scalar_of_mem_leavesOfAll h

theorem exists_scalar_of_mem_leavesOfAll : ∀ {vs : List Value} {leaf : Value}, leaf ∈ leavesOfAll vs →
    ∃ kind position text, leaf = .scalar kind position text
  | [], _, h => by cases h
  | v :: rest, leaf, h => by
    rcases List.mem_append.mp h with h | h
    · exact exists_scalar_of_mem_leaves h
    · exact exists_scalar_of_mem_leavesOfAll h

end

theorem result_readData (v : Value) : v.readData.result = v.dataValue := by
  unfold readData
  cases v.dataValue <;> rfl

mutual

/-- A value is read scalar by scalar. -/
theorem scalars_result : ∀ v : Value, v.scalars.result = v.leaves.mapM dataValue
  | .scalar kind position text => by
    rw [scalars, leaves, List.mapM_cons, List.mapM_nil]
    show (readData _).result.map _ = _
    rw [result_readData]
    cases dataValue (.scalar kind position text) <;> rfl
  | .group _ _ members => scalarsOfAll_result members

theorem scalarsOfAll_result : ∀ vs : List Value, (scalarsOfAll vs).result = (leavesOfAll vs).mapM dataValue
  | [] => rfl
  | v :: rest => by
    have hv := scalars_result v
    have hrest := scalarsOfAll_result rest
    rw [scalarsOfAll, leavesOfAll, List.mapM_append, ← hv, ← hrest]
    obtain ⟨log, result⟩ := v.scalars
    cases result with
    | error e => rfl
    | ok data => exact map_eq_pure_bind (data ++ ·) (scalarsOfAll rest).result

end

/-! ## Data values of scalars -/

/-- A scalar has a data value, unless it is a character literal that stands for no character. -/
theorem exists_dataValue_iff (kind : ScalarKind) (position : Position) (text : String) :
    (∃ data, (scalar kind position text).dataValue = .ok data) ↔
      (kind = .char → ∃ c, CharLiteral.read text position = .ok c) := by
  cases kind with
  | char =>
    rw [dataValue, scalarText]
    cases CharLiteral.read text position <;> simp [Except.map]
  | _ => simp [dataValue, scalarText, Except.map]

theorem dataValue_eq_error_iff (kind : ScalarKind) (position : Position) (text : String)
    (e : LoweringError) :
    (scalar kind position text).dataValue = .error e ↔
      kind = .char ∧ ∃ fault, CharLiteral.read text position = .error { fault, literal := text, position } ∧
        e = .literal { fault, literal := text, position } := by
  cases kind with
  | char =>
    rw [dataValue, scalarText]
    cases hr : CharLiteral.read text position with
    | ok c => simp [Except.map]
    | error read =>
      obtain ⟨fault, literal, place⟩ := read
      obtain ⟨hliteral, hplace, -⟩ := (CharLiteral.read_eq_error_iff text position _).mp hr
      simp only at hliteral hplace
      subst hliteral hplace
      simp [Except.map, eq_comm]
  | _ => simp [dataValue, scalarText, Except.map]

/-- Every character literal among some values stands for a character. -/
def CharsReadable (vs : List Value) : Prop :=
  ∀ position text, scalar .char position text ∈ vs → ∃ c, CharLiteral.read text position = .ok c

theorem charsReadable_iff {vs : List Value}
    (hscalars : ∀ v ∈ vs, ∃ kind position text, v = scalar kind position text) :
    CharsReadable vs ↔ ∀ v ∈ vs, ∃ data, v.dataValue = .ok data := by
  constructor
  · intro h v hv
    obtain ⟨kind, position, text, rfl⟩ := hscalars v hv
    rw [exists_dataValue_iff]
    rintro rfl
    exact h position text hv
  · intro h position text hmem
    exact (exists_dataValue_iff .char position text).mp (h _ hmem) rfl

/-- The first character literal that stands for no character decides what goes wrong. -/
theorem mapM_leaves_eq_error_iff (v : Value) (e : LoweringError) :
    v.leaves.mapM dataValue = .error e ↔ ∃ before position text after fault,
      v.leaves = before ++ scalar .char position text :: after ∧ CharsReadable before ∧
        CharLiteral.read text position = .error { fault, literal := text, position } ∧
        e = .literal { fault, literal := text, position } := by
  have hscalars : ∀ {before after : List Value} {leaf : Value}, v.leaves = before ++ leaf :: after →
      ∀ w ∈ before, ∃ kind position text, w = scalar kind position text := by
    intro before after leaf heq w hw
    exact exists_scalar_of_mem_leaves (heq ▸ List.mem_append_left _ hw)
  rw [mapM_eq_error_iff]
  constructor
  · rintro ⟨before, leaf, after, heq, hbefore, hleaf⟩
    obtain ⟨kind, position, text, rfl⟩ : ∃ kind position text, leaf = scalar kind position text :=
      exists_scalar_of_mem_leaves (heq ▸ List.mem_append_right _ List.mem_cons_self)
    obtain ⟨rfl, fault, hread, rfl⟩ := (dataValue_eq_error_iff kind position text e).mp hleaf
    exact ⟨before, position, text, after, fault, heq, (charsReadable_iff (hscalars heq)).mpr hbefore,
      hread, rfl⟩
  · rintro ⟨before, position, text, after, fault, heq, hbefore, hread, rfl⟩
    refine ⟨before, _, after, heq, (charsReadable_iff (hscalars heq)).mp hbefore, ?_⟩
    exact (dataValue_eq_error_iff .char position text _).mpr ⟨rfl, fault, hread, rfl⟩

/-! ## Trees -/

theorem result_tree_scalar (kind : ScalarKind) (position : Position) (text : String) :
    (scalar kind position text).tree.result
      = (scalar kind position text).dataValue.map NodeStore.singleton := by
  unfold tree readData
  cases (scalar kind position text).dataValue <;> rfl

theorem result_tree_group (kind : GroupKind) (position : Position) (members : List Value) :
    (group kind position members).tree.result
      = ((group kind position members).leaves.mapM dataValue).map fun data =>
          data.foldl (fun store value => store.addChild 0 value) (.singleton (.group kind.typeId)) := by
  rw [← scalars_result]
  rfl

/-- **Value trees.** A scalar becomes the node of its data value. A group becomes a root with the data values of
its scalars as leaves, if each character literal in it stands for a character; the first one that does not
is the error. -/
theorem tree_of_leaves (v : Value) :
    (∀ kind position text, v = .scalar kind position text →
      v.tree.result = v.dataValue.map NodeStore.singleton) ∧
    (∀ kind position members, v = .group kind position members →
      ((∃ store, v.tree.result = .ok store) ↔ CharsReadable v.leaves) ∧
        ∀ store, v.tree.result = .ok store →
          ∃ data : List DataValue, v.leaves.map dataValue = data.map .ok ∧
            (Cursor.shared store store.root).IsStar { typeId := kind.typeId, text := "" } data) ∧
    ∀ e, v.tree.result = .error e ↔ ∃ before position text after fault,
      v.leaves = before ++ scalar .char position text :: after ∧ CharsReadable before ∧
        CharLiteral.read text position = .error { fault, literal := text, position } ∧
        e = .literal { fault, literal := text, position } := by
  refine ⟨?_, ?_, ?_⟩
  · rintro kind position text rfl
    exact result_tree_scalar kind position text
  · rintro kind position members rfl
    rw [result_tree_group]
    constructor
    · rw [charsReadable_iff fun _ => exists_scalar_of_mem_leaves, ← exists_mapM_eq_ok_iff]
      constructor
      · rintro ⟨store, hstore⟩
        obtain ⟨data, hdata, -⟩ := (map_eq_ok_iff _ _ store).mp hstore
        exact ⟨data, hdata⟩
      · rintro ⟨data, hdata⟩
        exact ⟨_, (map_eq_ok_iff _ _ _).mpr ⟨data, hdata, rfl⟩⟩
    · intro store hstore
      obtain ⟨data, hdata, rfl⟩ := (map_eq_ok_iff _ _ store).mp hstore
      exact ⟨data, (mapM_eq_ok_iff _ _ _).mp hdata, NodeStore.isStar_foldl_addChild _ data⟩
  · intro e
    rw [← mapM_leaves_eq_error_iff]
    cases v with
    | scalar kind position text =>
      rw [result_tree_scalar, leaves, List.mapM_cons]
      cases (scalar kind position text).dataValue <;> simp [Except.map, bind, Except.bind, pure, Except.pure]
    | group kind position members =>
      rw [result_tree_group]
      cases (group kind position members).leaves.mapM dataValue <;> simp [Except.map]

end Value

end FrontEnd
