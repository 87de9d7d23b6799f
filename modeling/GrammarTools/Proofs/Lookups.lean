import GrammarTools.Proofs.Arena
import GrammarTools.Registry
import Mathlib.Data.List.Nodup

/-!
# Names and their numbers

A name is looked up in a table by its first place, and the place is cut to 16 bits. So all
numbers that are found lead back to their names if and only if the first 2¹⁶ places hold
all that is in the table (`number?_leads_back_iff`). Children are collected by the number
of a field, but each tells the name of its own field; these agree in all trees if and only
if, besides, no name stands twice among the first 2¹⁶ (`Language.fieldsCollect_iff`). A
definition is fit for use whatever its tables hold, but the tables of the languages at hand
are short and do not repeat a name.
-/

namespace GrammarTools

/-! ## Tables -/

section Table

variable {α : Type} [DecidableEq α] {table : List α} {x : α}

/-- The number for an entry of a table: its first place, cut to 16 bits. -/
def number? (table : List α) (x : α) : Option UInt16 := (table.idxOf? x).map Nat.toUInt16

omit [DecidableEq α] in
/-- The places that have a number are the first 2¹⁶. -/
theorem getElem?_take_toNat (id : UInt16) :
    (table.take UInt16.size)[id.toNat]? = table[id.toNat]? :=
  List.getElem?_take_of_lt id.toNat_lt

/-- The first place of an entry has a number if any of its places has. -/
theorem exists_number? (hx : x ∈ table.take UInt16.size) :
    ∃ id, number? table x = some id ∧ table[id.toNat]? = some x := by
  obtain ⟨j, hj, hjx⟩ := List.mem_take_iff_getElem.1 hx
  obtain ⟨i, hi⟩ := Option.isSome_iff_exists.1 (List.isSome_idxOf?.2 (List.mem_of_mem_take hx))
  obtain ⟨hlength, hix, hfirst⟩ := List.idxOf?_eq_some_iff.1 hi
  -- The first place is not behind any other, so it is not cut if another is not.
  have hij : i ≤ j := Nat.le_of_not_lt fun hlt => hfirst j hlt hjx
  have hsize : j < UInt16.size := Nat.lt_of_lt_of_le hj (Nat.min_le_left _ _)
  have hcut : i.toUInt16.toNat = i := UInt16.toNat_ofNat_of_lt' (Nat.lt_of_le_of_lt hij hsize)
  refine ⟨i.toUInt16, by rw [number?, hi, Option.map_some], ?_⟩
  rw [hcut, List.getElem?_eq_getElem hlength, hix]

/-- All entries are found under their numbers if and only if all stand among the first 2¹⁶. -/
theorem number?_leads_back_iff :
    (∀ x id, number? table x = some id → table[id.toNat]? = some x) ↔
      table ⊆ table.take UInt16.size := by
  constructor
  · intro h x hx
    obtain ⟨i, hi⟩ := Option.isSome_iff_exists.1 (List.isSome_idxOf?.2 hx)
    have hback := h x i.toUInt16 (by rw [number?, hi, Option.map_some])
    rw [← getElem?_take_toNat] at hback
    exact List.mem_of_getElem? hback
  · intro h x id hid
    obtain ⟨i, hi, -⟩ := Option.map_eq_some_iff.1 hid
    have hx : x ∈ table := List.isSome_idxOf?.1 (hi ▸ rfl)
    obtain ⟨id', hid', hback⟩ := exists_number? (h hx)
    rwa [Option.some_inj.1 (hid.symm.trans hid')]

/-- The number of an entry is the only one under which it is found if and only if all entries
    stand among the first 2¹⁶, and none stands there twice. -/
theorem number?_iff_getElem?_iff :
    (∀ x id, number? table x = some id ↔ table[id.toNat]? = some x) ↔
      table ⊆ table.take UInt16.size ∧ (table.take UInt16.size).Nodup := by
  constructor
  · intro h
    refine ⟨number?_leads_back_iff.1 fun x id => (h x id).1, ?_⟩
    refine List.nodup_iff_getElem?_ne_getElem?.2 fun i j hij hj heq => ?_
    -- Two places of one entry would both be its number.
    rw [List.length_take] at hj
    have hsize : j < UInt16.size := Nat.lt_of_lt_of_le hj (Nat.min_le_left _ _)
    have hi' : i.toUInt16.toNat = i := UInt16.toNat_ofNat_of_lt' (Nat.lt_trans hij hsize)
    have hj' : j.toUInt16.toNat = j := UInt16.toNat_ofNat_of_lt' hsize
    rw [← hi', ← hj', getElem?_take_toNat, getElem?_take_toNat] at heq
    have hx : table[j.toUInt16.toNat]? = some table[j] := by rw [hj', List.getElem?_eq_getElem]
    have hsame : i.toUInt16 = j.toUInt16 :=
      Option.some_inj.1 (((h _ _).2 (heq.trans hx)).symm.trans ((h _ _).2 hx))
    exact Nat.ne_of_lt hij (by rw [← hi', hsame, hj'])
  · rintro ⟨hall, hnodup⟩ x id
    refine ⟨number?_leads_back_iff.2 hall x id, fun hx => ?_⟩
    obtain ⟨id', hid', hback⟩ := exists_number? (hall (List.mem_of_getElem? hx))
    rw [← getElem?_take_toNat] at hx hback
    have hlength := (List.getElem?_eq_some_iff.1 hx).1
    rw [hid', UInt16.toNat_inj.1 ((List.getElem?_inj hlength hnodup).1 (hx.trans hback.symm))]

omit [DecidableEq α] in
/-- A short table is not cut off. -/
theorem subset_take_of_length_le (h : table.length ≤ UInt16.size) :
    table ⊆ table.take UInt16.size := by
  rw [List.take_of_length_le h]
  exact List.Subset.refl _

end Table

/-! ## Kinds and fields -/

namespace Language

variable (l : Language)

/-- The number of a kind leads back to the kind. -/
def KindsLeadBack : Prop :=
  ∀ name isNamed id, l.kindId? name isNamed = some id →
    l.kindName? id = some name ∧ l.kindIsNamed id = isNamed

/-- The number of a field leads back to the field. -/
def FieldsLeadBack : Prop := ∀ name id, l.fieldId? name = some id → l.fieldName? id = some name

/-- The children in a field are all those that tell its name, in every tree that the output of a
    parse can make. -/
def FieldsCollect : Prop :=
  ∀ source output id name, (Node.mk (.ofOutput l source output) id).childrenInField name =
    (Node.mk (.ofOutput l source output) id).children.filter (·.fieldName? == some name)

variable {l}

/-- A kind is looked up by its number in the table. -/
theorem kindId?_eq (name : String) (isNamed : Bool) :
    l.kindId? name isNamed = (number? l.definition.nodeKinds ⟨name, isNamed⟩).map KindId.mk := by
  have hp : (fun kind : NodeKind => kind.name == name && kind.isNamed == isNamed) =
      (· == ⟨name, isNamed⟩) := by
    funext ⟨kindName, kindIsNamed⟩
    rw [Bool.eq_iff_iff]
    simp
  rw [kindId?, number?, List.idxOf?, hp, Option.map_map]
  rfl

/-- A field is looked up by its number in the table. -/
theorem fieldId?_eq (name : String) :
    l.fieldId? name = (number? l.definition.fieldNames name).map FieldId.mk := by
  rw [fieldId?, number?, List.idxOf?, Option.map_map]
  rfl

theorem getElem?_nodeKinds_iff {id : KindId} {name : String} {isNamed : Bool} :
    l.definition.nodeKinds[id.index.toNat]? = some ⟨name, isNamed⟩ ↔
      l.kindName? id = some name ∧ l.kindIsNamed id = isNamed := by
  rw [kindName?, kindIsNamed]
  cases l.definition.nodeKinds[id.index.toNat]? with
  | none => simp
  | some kind =>
    cases kind
    simp

/-- Lookups of kinds lead back exactly if no kind is listed behind the last number only. -/
theorem kindsLeadBack_iff : l.KindsLeadBack ↔
    l.definition.nodeKinds ⊆ l.definition.nodeKinds.take UInt16.size := by
  rw [← number?_leads_back_iff]
  constructor
  · intro h kind index hindex
    exact getElem?_nodeKinds_iff.2 (h kind.name kind.isNamed ⟨index⟩
      (by rw [kindId?_eq, hindex, Option.map_some]))
  · intro h name isNamed id hid
    rw [kindId?_eq] at hid
    obtain ⟨index, hindex, rfl⟩ := Option.map_eq_some_iff.1 hid
    exact getElem?_nodeKinds_iff.1 (h _ index hindex)

theorem fieldId?_eq_some_iff {name : String} {id : FieldId} :
    l.fieldId? name = some id ↔ number? l.definition.fieldNames name = some id.index := by
  rw [fieldId?_eq]
  cases id
  cases number? l.definition.fieldNames name <;> simp

/-- Lookups of fields lead back exactly if no name is listed behind the last number only. -/
theorem fieldsLeadBack_iff : l.FieldsLeadBack ↔
    l.definition.fieldNames ⊆ l.definition.fieldNames.take UInt16.size := by
  rw [← number?_leads_back_iff]
  exact ⟨fun h name index hindex => h name ⟨index⟩ (fieldId?_eq_some_iff.2 hindex),
    fun h name id hid => h name id.index (fieldId?_eq_some_iff.1 hid)⟩

/-! ## Children in a field -/

/-- The children in a field are those with the number of its name, if there is one. -/
theorem childrenInField_eq (n : Node) (name : String) : n.childrenInField name =
    n.children.filter fun child =>
      (n.tree.language.fieldId? name).any (child.data.field == some ·) := by
  rw [Node.childrenInField]
  cases n.tree.language.fieldId? name with
  | none => exact (List.filter_eq_nil_iff.2 fun _ _ => Bool.false_ne_true).symm
  | some field => rfl

/-- Where numbers and names agree, a field has a number if and only if it has the name. -/
theorem any_fieldId? (h : ∀ name id, l.fieldId? name = some id ↔ l.fieldName? id = some name)
    (name : String) (field : Option FieldId) :
    (l.fieldId? name).any (field == some ·) = (field.bind l.fieldName? == some name) := by
  rw [Bool.eq_iff_iff, Option.any_eq_true, beq_iff_eq, Option.bind_eq_some_iff]
  exact exists_congr fun id => by rw [beq_iff_eq, h, and_comm]

end Language

namespace Tree

variable (l : Language) (field : FieldId)

/-- A tree of which the root has one child, in the given field. -/
def oneChild : Tree :=
  .ofOutput l ""
    ⟨.branchAt .error (.empty 0) [(RawNode.leaf .error (.empty 0)).withField field], []⟩

theorem children_oneChild : (oneChild l field).root.children = [⟨oneChild l field, 1⟩] := by
  rw [oneChild, ofOutput, Arena.ofRaw_eq]
  rfl

theorem field_oneChild : (Node.mk (oneChild l field) 1).data.field = some field := by
  rw [oneChild, ofOutput, Arena.ofRaw_eq]
  rfl

end Tree

namespace Language

variable {l : Language}

/-- All children are collected under the names that they tell if and only if numbers and names
    agree. One child is enough to tell. -/
theorem fieldsCollect_iff_agree :
    l.FieldsCollect ↔ ∀ name id, l.fieldId? name = some id ↔ l.fieldName? id = some name := by
  constructor
  · intro h name id
    have hroot : (Tree.oneChild l id).root.childrenInField name =
      (Tree.oneChild l id).root.children.filter (·.fieldName? == some name) := h _ _ _ _
    have hchild : Node.mk (Tree.oneChild l id) 1 ∈ (Tree.oneChild l id).root.children :=
      Tree.children_oneChild l id ▸ List.mem_singleton_self _
    have hlanguage : (Tree.oneChild l id).root.tree.language = l := rfl
    -- Both ways to collect see the child alone, by its number and by its name.
    calc l.fieldId? name = some id
      _ ↔ Node.mk (Tree.oneChild l id) 1 ∈ (Tree.oneChild l id).root.childrenInField name := by
        rw [childrenInField_eq, List.mem_filter, hlanguage, Tree.field_oneChild]
        simp [hchild, Option.any_eq_true]
      _ ↔ _ := by rw [hroot]
      _ ↔ l.fieldName? id = some name := by
        rw [List.mem_filter, Node.fieldName?, Tree.field_oneChild, Option.bind_some, beq_iff_eq]
        exact and_iff_right hchild
  · intro h source output id name
    rw [childrenInField_eq]
    refine List.filter_congr fun child hchild => ?_
    obtain ⟨i, -, rfl⟩ := List.mem_map.1 hchild
    exact any_fieldId? h name _

/-- Lookups collect the children of a field exactly if its name is listed once, and not behind the
    last number. -/
theorem fieldsCollect_iff : l.FieldsCollect ↔
    l.definition.fieldNames ⊆ l.definition.fieldNames.take UInt16.size ∧
      (l.definition.fieldNames.take UInt16.size).Nodup := by
  rw [fieldsCollect_iff_agree, ← number?_iff_getElem?_iff]
  exact ⟨fun h name index => fieldId?_eq_some_iff.symm.trans (h name ⟨index⟩),
    fun h name id => fieldId?_eq_some_iff.trans (h name id.index)⟩

/-- When the numbers of kinds and fields lead back to their names, and when all children of a name
    are collected, for every language. -/
theorem lookups_sound_iff (l : Language) :
    (l.KindsLeadBack ↔ l.definition.nodeKinds ⊆ l.definition.nodeKinds.take UInt16.size) ∧
    (l.FieldsLeadBack ↔ l.definition.fieldNames ⊆ l.definition.fieldNames.take UInt16.size) ∧
    (l.FieldsCollect ↔ l.definition.fieldNames ⊆ l.definition.fieldNames.take UInt16.size ∧
      (l.definition.fieldNames.take UInt16.size).Nodup) :=
  ⟨kindsLeadBack_iff, fieldsLeadBack_iff, fieldsCollect_iff⟩

/-- A language with two fields of one name, and with a word in each. -/
def twins : Language where
  definition := {
    serial := 0
    name := "words"
    version := languageVersion
    nodeKinds := [⟨errorKindName, true⟩, ⟨"document", true⟩, ⟨"word", true⟩]
    fieldNames := ["head", "head"]
    fileTypes := []
    scope := "source.words"
    highlights := []
    parse := fun _ => ⟨.branchAt ⟨1⟩ ⟨0, 2⟩
      [(RawNode.leaf ⟨2⟩ ⟨0, 1⟩).withField ⟨0⟩, (RawNode.leaf ⟨2⟩ ⟨1, 2⟩).withField ⟨1⟩], []⟩ }
  isComplete := by decide
  versionSupported := by decide

/-- Only the first of two words is collected, though both tell the name of the field. -/
theorem twins_collect_first :
    ((Tree.parse twins "ab").root.childrenInField "head").map Node.id = [1] ∧
    ((Tree.parse twins "ab").root.children.filter (·.fieldName? == some "head")).map Node.id =
      [1, 2] := by
  decide +kernel

/-- A language with the error kind, `n` equal ones and a last one. -/
def crowded (n : Nat) : Language where
  definition := {
    serial := 0
    name := "crowd"
    version := languageVersion
    nodeKinds := ⟨errorKindName, true⟩ :: (List.replicate n ⟨"word", true⟩ ++ [⟨"last", true⟩])
    fieldNames := []
    fileTypes := []
    scope := "source.crowd"
    highlights := []
    parse := fun _ => ⟨.leaf .error (.empty 0), []⟩ }
  isComplete := by simp [LanguageDef.isComplete]
  versionSupported := rfl

theorem nodeKinds_crowded (n : Nat) : (crowded n).definition.nodeKinds =
    (⟨errorKindName, true⟩ :: List.replicate n ⟨"word", true⟩) ++ [⟨"last", true⟩] := rfl

/-- All numbers of kinds lead back only if the place of the last one is not cut. -/
theorem kindsLeadBack_crowded_iff (n : Nat) : (crowded n).KindsLeadBack ↔ n + 1 < UInt16.size := by
  rw [kindsLeadBack_iff, nodeKinds_crowded]
  refine ⟨fun h => Nat.lt_of_not_le fun hn => ?_, fun hn => subset_take_of_length_le ?_⟩
  · have hlast := h (List.mem_append_right _ (List.mem_singleton_self _))
    rw [List.take_append_of_le_length (by simpa using hn)] at hlast
    simpa [errorKindName] using List.mem_of_mem_take hlast
  · simpa using hn

/-- Numbers and names agree in short tables without a repeated field. -/
theorem lookups_agree {l : Language} (hkinds : l.definition.nodeKinds.length ≤ UInt16.size)
    (hlength : l.definition.fieldNames.length ≤ UInt16.size)
    (hnodup : l.definition.fieldNames.Nodup) :
    l.KindsLeadBack ∧ l.FieldsLeadBack ∧ l.FieldsCollect :=
  have hfields := subset_take_of_length_le hlength
  ⟨kindsLeadBack_iff.2 (subset_take_of_length_le hkinds), fieldsLeadBack_iff.2 hfields,
    fieldsCollect_iff.2 ⟨hfields, by rwa [List.take_of_length_le hlength]⟩⟩

/-- Numbers and names agree in all languages of the registry. -/
theorem lookups_agree_languages (g : RegisteredGrammar) (hg : g ∈ Registry.all) :
    ∃ l, g.language = .ok l ∧ l.KindsLeadBack ∧ l.FieldsLeadBack ∧ l.FieldsCollect := by
  rcases List.mem_cons.1 hg with rfl | hg
  · exact ⟨Simpl.language, rfl, lookups_agree (by decide) (by decide) (by decide)⟩
  · obtain rfl := List.mem_singleton.1 hg
    exact ⟨Peopl.language, rfl, lookups_agree (by decide) (by decide) (by decide)⟩

end Language

end GrammarTools
