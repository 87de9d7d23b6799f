import GrammarTools.Corpus
import GrammarTools.Peopl.Language
import GrammarTools.Proofs.Rebuilding
import GrammarTools.Proofs.Words
import GrammarTools.Simpl.Language

/-!
# Outlines of trees

What an S-expression tells of a tree is its *outline*: the kinds of the named
nodes, and the fields of those below the first. The writer keeps what is still to
be written in a list; it writes the outline as the recursion over it does
(`Node.toSexp_eq`).

* The atoms of a printed outline are those of its parts in order
  (`Outline.atoms_print`), and they tell where the outline ends and what it is
  (`Outline.eq_of_atoms_append`), whatever the names are: only a field name can
  stand between a kind and a parenthesis, and it ends with a colon.
* If no name has blanks or parentheses in it, the printed outline is in normal
  form (`Outline.normalize_print`).
-/

namespace GrammarTools

/-- A tree of named kinds and field names. -/
structure Outline where
  /-- The name of the kind. -/
  kind : String
  /-- What is below, in order, each with the name of the field that it fills. -/
  parts : List (Option String × Outline)

namespace Outline

/-- What stands in front of a part. -/
def front : Option String → String
  | none => " "
  | some field => " " ++ field ++ ": "

mutual

/-- The S-expression of an outline. -/
def print : Outline → String
  | ⟨kind, parts⟩ => "(" ++ kind ++ printAll parts ++ ")"

/-- The S-expressions of some parts. -/
def printAll : List (Option String × Outline) → String
  | [] => ""
  | (field, outline) :: rest => front field ++ outline.print ++ printAll rest

end

/-- The atoms in front of a part. -/
def frontAtoms : Option String → List (List Char)
  | none => []
  | some field => [field.toList ++ [':']]

mutual

/-- The atoms of an outline. -/
def atoms : Outline → List (List Char)
  | ⟨kind, parts⟩ => ['('] :: kind.toList :: (atomsAll parts ++ [[')']])

/-- The atoms of some parts. -/
def atomsAll : List (Option String × Outline) → List (List Char)
  | [] => []
  | (field, outline) :: rest => frontAtoms field ++ outline.atoms ++ atomsAll rest

end

mutual

/-- The number of kinds in an outline. -/
def size : Outline → Nat
  | ⟨_, parts⟩ => 1 + sizeAll parts

/-- The number of kinds in some parts. -/
def sizeAll : List (Option String × Outline) → Nat
  | [] => 0
  | (_, outline) :: rest => outline.size + sizeAll rest

end

theorem size_pos (o : Outline) : 0 < o.size := by
  cases o
  rw [size]
  omega

mutual

/-- An outline whose kinds and fields are words. -/
def IsPlain : Outline → Prop
  | ⟨kind, parts⟩ => Sexp.IsWord kind.toList ∧ IsPlainAll parts

/-- Parts whose kinds and fields are words. -/
def IsPlainAll : List (Option String × Outline) → Prop
  | [] => True
  | (field, outline) :: rest =>
    (∀ name ∈ field, Sexp.IsWord name.toList) ∧ outline.IsPlain ∧ IsPlainAll rest

end

/-! ## Atoms of printed outlines -/

theorem isWord_field {name : String} (h : Sexp.IsWord name.toList) :
    Sexp.IsWord (name.toList ++ [':']) where
  ne_nil := by simp
  not_blank c hc := by
    rcases List.mem_append.1 hc with hc | hc
    · exact h.not_blank c hc
    · obtain rfl := List.mem_singleton.1 hc
      rfl
  not_paren c hc := by
    rcases List.mem_append.1 hc with hc | hc
    · exact h.not_paren c hc
    · obtain rfl := List.mem_singleton.1 hc
      decide

/-- The atoms of a field in front of a text are its own. -/
theorem atoms_append_front (cs ds : List Char) {field : Option String}
    (h : ∀ name ∈ field, Sexp.IsWord name.toList) :
    Sexp.atoms (cs ++ ((front field).toList ++ ds)) =
      Sexp.atoms cs ++ (frontAtoms field ++ Sexp.atoms ds) := by
  cases field with
  | none => exact Sexp.atoms_append_blank (c := ' ') rfl cs ds
  | some name =>
    have hfield : (front (some name)).toList ++ ds =
        ' ' :: ((name.toList ++ [':']) ++ ' ' :: ds) := by
      simp [front]
    rw [hfield, Sexp.atoms_append_blank rfl, Sexp.atoms_append_blank rfl,
      Sexp.atoms_of_isWord (isWord_field (h name rfl))]
    rfl

mutual

/-- An outline of words is read as its atoms, whatever stands behind it. -/
theorem atoms_print_append (ds : List Char) : (o : Outline) → o.IsPlain →
    Sexp.atoms (o.print.toList ++ ds) = o.atoms ++ Sexp.atoms ds
  | ⟨kind, parts⟩, ⟨hkind, hparts⟩ => by
    have hprint : (print ⟨kind, parts⟩).toList ++ ds =
        [] ++ '(' :: (kind.toList ++ ((printAll parts).toList ++ ')' :: ds)) := by
      simp [print]
    rw [hprint, Sexp.atoms_append_open, atoms_append_printAll kind.toList ds parts hparts,
      Sexp.atoms_of_isWord hkind, atoms]
    simp

/-- Parts of words are read as their atoms, whatever stands in front of them. -/
theorem atoms_append_printAll (cs ds : List Char) :
    (parts : List (Option String × Outline)) → IsPlainAll parts →
    Sexp.atoms (cs ++ ((printAll parts).toList ++ ')' :: ds)) =
      Sexp.atoms cs ++ (atomsAll parts ++ [')'] :: Sexp.atoms ds)
  | [], _ => Sexp.atoms_append_close cs ds
  | (field, o) :: rest, ⟨hfield, ho, hrest⟩ => by
    have hall : (printAll ((field, o) :: rest)).toList ++ ')' :: ds = (front field).toList ++
        (o.print.toList ++ ([] ++ ((printAll rest).toList ++ ')' :: ds))) := by
      simp [printAll]
    rw [hall, atoms_append_front cs _ hfield, atoms_print_append _ o ho,
      atoms_append_printAll [] ds rest hrest, atomsAll]
    simp

end

/-- The atoms of a printed outline are those of the outline. -/
theorem atoms_print {o : Outline} (h : o.IsPlain) : Sexp.atoms o.print.toList = o.atoms := by
  have := atoms_print_append [] o h
  rwa [List.append_nil, Sexp.atoms_nil, List.append_nil] at this

/-! ## Normal form -/

theorem field_ne_paren (name : String) :
    name.toList ++ [':'] ≠ ['('] ∧ name.toList ++ [':'] ≠ [')'] := by
  constructor <;> intro h <;> simpa using congrArg List.getLast? h

theorem isGlued_eq_false {previous atom : List Char} (hprev : previous ≠ ['('])
    (hatom : atom ≠ [')']) : Sexp.isGlued (some previous) atom = false := by
  simp [Sexp.isGlued, hprev, hatom]

theorem push_space (out : String) : out.push ' ' = out ++ " " := by
  rw [String.push_eq_append]
  rfl

mutual

/-- The atoms of an outline are written as the outline is printed, behind a space if need be. -/
theorem normalizeFrom_atoms (out : String) (previous : Option (List Char))
    (rest : List (List Char)) : (o : Outline) → o.IsPlain →
    Sexp.normalizeFrom out previous (o.atoms ++ rest) =
      Sexp.normalizeFrom ((if Sexp.isGlued previous ['('] then out else out.push ' ') ++ o.print)
        (some [')']) rest
  | ⟨kind, parts⟩, ⟨hkind, hparts⟩ => by
    have hopen : kind.toList ≠ ['('] := fun h => (hkind.not_paren '(' (by simp [h])).1 rfl
    rw [atoms, List.cons_append, Sexp.normalizeFrom, List.cons_append, Sexp.normalizeFrom,
      List.append_assoc, normalizeFrom_atomsAll _ hopen _ parts hparts, print]
    simp [Sexp.isGlued, String.append_assoc]

/-- Atoms of outlines in a row are joined to what the outlines print. -/
theorem normalizeFrom_atomsAll (out : String) {previous : List Char} (hprev : previous ≠ ['('])
    (rest : List (List Char)) : (parts : List (Option String × Outline)) → IsPlainAll parts →
    Sexp.normalizeFrom out (some previous) (atomsAll parts ++ ([[')']] ++ rest)) =
      Sexp.normalizeFrom (out ++ printAll parts ++ ")") (some [')']) rest
  | [], _ => by simp [atomsAll, Sexp.normalizeFrom, Sexp.isGlued, printAll]
  | (none, o) :: more, ⟨_, ho, hmore⟩ => by
    rw [atomsAll, frontAtoms, List.nil_append, List.append_assoc, normalizeFrom_atoms out _ _ o ho,
      normalizeFrom_atomsAll _ (by decide) rest more hmore, printAll,
      isGlued_eq_false hprev (by decide), if_neg Bool.false_ne_true, push_space, front]
    simp only [String.append_assoc]
  | (some name, o) :: more, ⟨_, ho, hmore⟩ => by
    obtain ⟨hopen, hclose⟩ := field_ne_paren name
    rw [atomsAll, frontAtoms, List.append_assoc, List.append_assoc, List.singleton_append,
      Sexp.normalizeFrom, normalizeFrom_atoms _ _ _ o ho,
      normalizeFrom_atomsAll _ (by decide) rest more hmore, printAll,
      isGlued_eq_false hprev hclose, isGlued_eq_false hopen (by decide),
      if_neg Bool.false_ne_true, if_neg Bool.false_ne_true, push_space, push_space, front]
    simp [String.append_assoc]

end

/-- A printed outline of words is in normal form. -/
theorem normalize_print {o : Outline} (h : o.IsPlain) : Sexp.normalize o.print = o.print := by
  have := normalizeFrom_atoms "" none [] o h
  rw [List.append_nil] at this
  rw [Sexp.normalize, atoms_print h, this]
  simp [Sexp.isGlued, Sexp.normalizeFrom]

/-! ## Outlines read back from their atoms -/

/-- The atoms of an outline begin with a parenthesis, which is how a field is told from an outline.
    -/
theorem exists_atoms_eq (o : Outline) : ∃ inner, o.atoms = ['('] :: inner := by
  cases o
  exact ⟨_, by rw [atoms]⟩

/-- What stands in front of an opening parenthesis is the field, if there is one. -/
theorem frontAtoms_inj {field field' : Option String} {cs ds : List (List Char)}
    (h : frontAtoms field ++ ['('] :: cs = frontAtoms field' ++ ['('] :: ds) :
    field = field' ∧ cs = ds := by
  cases field with
  | none =>
    cases field' with
    | none => simpa [frontAtoms] using h
    | some name => exact absurd (List.cons.inj h).1.symm (field_ne_paren name).1
  | some name =>
    cases field' with
    | none => exact absurd (List.cons.inj h).1 (field_ne_paren name).1
    | some name' => simpa [frontAtoms, String.toList_inj] using h

/-- What stands in front of an outline does not begin with a closing parenthesis. -/
theorem frontAtoms_append_ne (field : Option String) (o : Outline) (cs ds : List (List Char)) :
    frontAtoms field ++ (o.atoms ++ cs) ≠ [')'] :: ds := by
  obtain ⟨inner, ho⟩ := o.exists_atoms_eq
  rw [ho]
  cases field with
  | none => simp [frontAtoms]
  | some name => exact fun h => (field_ne_paren name).2 (List.cons.inj h).1

mutual

/-- The atoms of an outline tell it from any other, and where it ends. -/
theorem eq_of_atoms_append {rest rest' : List (List Char)} : (o o' : Outline) →
    o.atoms ++ rest = o'.atoms ++ rest' → o = o' ∧ rest = rest'
  | ⟨kind, parts⟩, ⟨kind', parts'⟩, h => by
    simp only [atoms, List.cons_append, List.nil_append, List.append_assoc, List.cons.injEq,
      true_and, String.toList_inj] at h
    obtain ⟨rfl, hparts⟩ := h
    obtain ⟨rfl, rfl⟩ := eq_of_atomsAll_append parts parts' hparts
    exact ⟨rfl, rfl⟩

/-- Outlines in a row are told by their atoms up to the parenthesis that ends them. -/
theorem eq_of_atomsAll_append {rest rest' : List (List Char)} :
    (parts parts' : List (Option String × Outline)) →
    atomsAll parts ++ [')'] :: rest = atomsAll parts' ++ [')'] :: rest' →
    parts = parts' ∧ rest = rest'
  | [], [], h => ⟨rfl, (List.cons.inj h).2⟩
  | [], (field', o') :: more', h => by
    simp only [atomsAll, List.append_assoc] at h
    exact absurd h.symm (frontAtoms_append_ne field' o' _ _)
  | (field, o) :: more, [], h => by
    simp only [atomsAll, List.append_assoc] at h
    exact absurd h (frontAtoms_append_ne field o _ _)
  | (field, o) :: more, (field', o') :: more', h => by
    obtain ⟨inner, ho⟩ := o.exists_atoms_eq
    obtain ⟨inner', ho'⟩ := o'.exists_atoms_eq
    simp only [atomsAll, List.append_assoc, ho, ho', List.cons_append] at h
    obtain ⟨rfl, hinner⟩ := frontAtoms_inj h
    have hfirst : o.atoms ++ (atomsAll more ++ [')'] :: rest) =
        o'.atoms ++ (atomsAll more' ++ [')'] :: rest') := by
      rw [ho, ho', List.cons_append, hinner, List.cons_append]
    obtain ⟨rfl, hmore⟩ := eq_of_atoms_append o o' hfirst
    obtain ⟨rfl, rfl⟩ := eq_of_atomsAll_append more more' hmore
    exact ⟨rfl, rfl⟩

end

/-- An outline is told by what it prints. -/
theorem print_inj {o o' : Outline} (h : o.IsPlain) (h' : o'.IsPlain) (heq : o.print = o'.print) :
    o = o' := by
  have hatoms : o.atoms ++ [] = o'.atoms ++ [] := by rw [← atoms_print h, ← atoms_print h', heq]
  exact (eq_of_atoms_append o o' hatoms).1

end Outline

/-! ## Outlines of nodes -/

namespace RawNode

mutual

/-- The outline of a node in a language. -/
def outline (l : Language) : RawNode → Outline
  | ⟨kind, _, _, children⟩ => ⟨(l.kindName? kind).getD errorKindName, outlineAll l children⟩

/-- The outlines of the named ones among some nodes. -/
def outlineAll (l : Language) : List RawNode → List (Option String × Outline)
  | [] => []
  | node :: rest =>
    if l.kindIsNamed node.kind then
      (node.field.bind l.fieldName?, node.outline l) :: outlineAll l rest
    else outlineAll l rest

end

theorem outline_eq (l : Language) (node : RawNode) : node.outline l =
    ⟨(l.kindName? node.kind).getD errorKindName, outlineAll l node.children⟩ := by
  cases node
  rw [outline]

mutual

/-- The outline of a node has no more parts than the node. -/
theorem size_outline_le (l : Language) : (node : RawNode) → (node.outline l).size ≤ node.size
  | ⟨_, _, _, children⟩ => by
    rw [outline, Outline.size, size]
    exact Nat.add_le_add_left (sizeAll_outlineAll_le l children) 1

theorem sizeAll_outlineAll_le (l : Language) :
    (nodes : List RawNode) → Outline.sizeAll (outlineAll l nodes) ≤ sizeAll nodes
  | [] => Nat.le_refl 0
  | node :: rest => by
    have hnode := size_outline_le l node
    have hrest := sizeAll_outlineAll_le l rest
    rw [outlineAll, sizeAll]
    split
    · rw [Outline.sizeAll]
      omega
    · omega

end

end RawNode

/-- A language whose named kinds and fields have words as names. -/
structure Language.HasPlainNames (l : Language) : Prop where
  kinds : ∀ kind ∈ l.definition.nodeKinds, kind.isNamed → Sexp.IsWord kind.name.toList
  fields : ∀ field ∈ l.definition.fieldNames, Sexp.IsWord field.toList

namespace Language.HasPlainNames

variable {l : Language} (h : l.HasPlainNames)
include h

/-- The name of a named kind is a word. -/
theorem isWord_kind {kind : KindId} (hnamed : l.kindIsNamed kind = true) :
    Sexp.IsWord ((l.kindName? kind).getD errorKindName).toList := by
  rw [Language.kindIsNamed] at hnamed
  rw [Language.kindName?]
  cases hkind : l.definition.nodeKinds[kind.index.toNat]? with
  | none => simp [hkind] at hnamed
  | some entry =>
    simp only [hkind, Option.map_some, Option.getD_some] at hnamed ⊢
    exact h.kinds entry (List.mem_of_getElem? hkind) hnamed

theorem isWord_field {field : Option FieldId} {name : String}
    (hname : name ∈ field.bind l.fieldName?) : Sexp.IsWord name.toList := by
  obtain ⟨id, rfl, hid⟩ := Option.bind_eq_some_iff.1 hname
  exact h.fields name (List.mem_of_getElem? hid)

mutual

/-- A node whose kind is named has an outline that prints plainly. -/
theorem isPlain_outline : (node : RawNode) → l.kindIsNamed node.kind = true →
    (node.outline l).IsPlain
  | ⟨_, _, _, children⟩, hnamed => by
    rw [RawNode.outline]
    exact ⟨h.isWord_kind hnamed, isPlainAll_outlineAll children⟩

theorem isPlainAll_outlineAll : (nodes : List RawNode) →
    Outline.IsPlainAll (RawNode.outlineAll l nodes)
  | [] => trivial
  | node :: rest => by
    rw [RawNode.outlineAll]
    split
    · exact ⟨fun _ hname => h.isWord_field hname, isPlain_outline node ‹_›,
        isPlainAll_outlineAll rest⟩
    · exact isPlainAll_outlineAll rest

end

end Language.HasPlainNames

/-- The outline from a node down. -/
def Node.outline (n : Node) : Outline :=
  ((n.tree.rebuild n.tree.nodes.size n.id).getD default).outline n.tree.language

/-- What a part of another node shows. -/
def Node.part (n : Node) : Option String × Outline := (n.fieldName?, n.outline)

variable {tree : Tree} {parent : Option NodeId} {id : NodeId} {node root : RawNode}

namespace Tree

/-- What a node of a tree stands for has the same outline. -/
theorem Stands.outline_eq (h : tree.Stands parent id node) :
    (Node.mk tree id).outline = node.outline tree.language := by
  have hle := h.le_size
  have hrebuild : tree.rebuild tree.nodes.size id = some node := h.rebuild_eq (by omega)
  rw [Node.outline, hrebuild, Option.getD_some]

/-- So have its children, of which only the named ones are kept. -/
theorem outlineAll_eq {ids : List NodeId} {nodes : List RawNode}
    (h : List.Forall₂ (tree.Stands parent) ids nodes) :
    RawNode.outlineAll tree.language nodes =
      ((ids.map (Node.mk tree)).filter Node.isNamed).map Node.part := by
  induction h with
  | nil => rfl
  | @cons id node ids nodes hnode _ ih =>
    have hnamed : (Node.mk tree id).isNamed = tree.language.kindIsNamed node.kind := by
      rw [Node.isNamed, hnode.data_eq]
    have hpart : (Node.mk tree id).part =
        (node.field.bind tree.language.fieldName?, node.outline tree.language) := by
      rw [Node.part, Node.fieldName?, hnode.data_eq, hnode.outline_eq]
    rw [RawNode.outlineAll, List.map_cons, List.filter_cons, hnamed, ih]
    split
    · rw [List.map_cons, hpart]
    · rfl

/-- Behind the end of the array a node has nothing below it. -/
theorem outline_of_size_le (hid : tree.nodes.size ≤ id) :
    (Node.mk tree id).outline = ⟨(Node.mk tree id).kind, []⟩ ∧
      (Node.mk tree id).namedChildren = [] := by
  have hdata : (Node.mk tree id).data = default := by
    rw [Node.data, Array.getD_eq_getD_getElem?, Array.getElem?_eq_none hid, Option.getD_none]
  have hrebuild : tree.rebuild tree.nodes.size id = none := by
    cases tree.nodes.size with
    | zero => rfl
    | succ bound =>
      rw [rebuild, Array.getElem?_eq_none hid]
      rfl
  rw [Node.outline, hrebuild, Node.kind, Node.namedChildren, Node.children, hdata]
  exact ⟨RawNode.outline_eq .., rfl⟩

/-- A tree that has been made of the output of a parse. -/
def IsOfParse (tree : Tree) : Prop :=
  ∃ language source output, tree = ofOutput language source output

/-- A parsed tree has a root that its array stands for. -/
theorem IsOfParse.exists_root (h : tree.IsOfParse) :
    ∃ root, tree.Stands none 0 root ∧ tree.nodes.size = root.size := by
  obtain ⟨language, source, output, rfl⟩ := h
  refine ⟨output.root, stands_root language source output, ?_⟩
  rw [ofOutput, List.size_toArray, Arena.ofRaw_eq, RawNode.length_number]

end Tree

namespace Node

variable {n : Node} (h : n.tree.IsOfParse)
include h

/-- The outline of a node has the outlines of the named nodes right below as its parts. -/
theorem outline_eq : n.outline = ⟨n.kind, n.namedChildren.map part⟩ := by
  obtain ⟨root, hroot, hsize⟩ := h.exists_root
  rcases Nat.lt_or_ge n.id n.tree.nodes.size with hid | hid
  · obtain ⟨parent, node, hnode, -⟩ := Tree.exists_stands hroot hsize hid
    have hparts := Tree.outlineAll_eq hnode.children
    rw [hnode.outline_eq, RawNode.outline_eq, hparts, kind, namedChildren, children, hnode.data_eq]
    rfl
  · obtain ⟨houtline, hchildren⟩ := Tree.outline_of_size_le hid
    rw [houtline, hchildren, List.map_nil]

/-- The outline of a node is no larger than the array of its tree, so fuel for the array is enough.
    -/
theorem size_outline_le : n.outline.size ≤ n.tree.nodes.size := by
  obtain ⟨root, hroot, hsize⟩ := h.exists_root
  rcases Nat.lt_or_ge n.id n.tree.nodes.size with hid | hid
  · obtain ⟨parent, node, hnode, -⟩ := Tree.exists_stands hroot hsize hid
    have hle := hnode.le_size
    have houtline := RawNode.size_outline_le n.tree.language node
    rw [hnode.outline_eq]
    exact houtline.trans (by omega)
  · rw [(Tree.outline_of_size_le hid).1, hsize]
    exact root.size_pos

theorem isPlain_outline (hplain : n.tree.language.HasPlainNames) (hnamed : n.isNamed = true) :
    n.outline.IsPlain := by
  obtain ⟨root, hroot, hsize⟩ := h.exists_root
  rcases Nat.lt_or_ge n.id n.tree.nodes.size with hid | hid
  · obtain ⟨parent, node, hnode, -⟩ := Tree.exists_stands hroot hsize hid
    rw [isNamed, hnode.data_eq] at hnamed
    rw [hnode.outline_eq]
    exact hplain.isPlain_outline node hnamed
  · rw [(Tree.outline_of_size_le hid).1]
    exact ⟨hplain.isWord_kind hnamed, trivial⟩

end Node

/-! ## S-expressions of nodes -/

namespace Node

namespace SexpPart

/-- What a part is written as. -/
def text (tree : Tree) : SexpPart → String
  | .node front id => front ++ (Node.mk tree id).outline.print
  | .close => ")"

/-- What some parts are written as. -/
def textAll (tree : Tree) : List SexpPart → String
  | [] => ""
  | part :: parts => part.text tree ++ textAll tree parts

/-- The number of steps that it takes to write a part. -/
def cost (tree : Tree) : SexpPart → Nat
  | .node _ id => 2 * (Node.mk tree id).outline.size
  | .close => 1

/-- The number of steps that it takes to write some parts. -/
def costAll (tree : Tree) : List SexpPart → Nat
  | [] => 0
  | part :: parts => part.cost tree + costAll tree parts

/-- A child that is still to be written. -/
def ofChild (child : Node) : SexpPart := .node child.sexpFront child.id

/-- The text of a child that is still to be printed is its field and its outline. -/
theorem text_ofChild (child : Node) :
    (ofChild child).text child.tree = Outline.front child.fieldName? ++ child.outline.print := by
  rw [ofChild, text, sexpFront]
  cases child.fieldName? <;> rfl

theorem cost_ofChild (child : Node) :
    (ofChild child).cost child.tree = 2 * child.outline.size :=
  rfl

/-- Every part costs something, so that the fuel goes down. -/
theorem cost_pos (tree : Tree) (part : SexpPart) : 0 < part.cost tree := by
  cases part with
  | node front id => exact Nat.mul_pos Nat.two_pos (Node.mk tree id).outline.size_pos
  | close => exact Nat.one_pos

/-- Children come before what was to be printed already. -/
theorem textAll_append {children : List Node} (h : ∀ child ∈ children, child.tree = tree)
    (parts : List SexpPart) : textAll tree (children.map ofChild ++ parts) =
      Outline.printAll (children.map Node.part) ++ textAll tree parts := by
  induction children with
  | nil => simp [Outline.printAll]
  | cons child children ih =>
    obtain ⟨rfl, hchildren⟩ := List.forall_mem_cons.1 h
    simp only [List.map_cons, List.cons_append, textAll, ih hchildren, text_ofChild, Node.part,
      Outline.printAll, String.append_assoc]

theorem costAll_append {children : List Node} (h : ∀ child ∈ children, child.tree = tree)
    (parts : List SexpPart) : costAll tree (children.map ofChild ++ parts) =
      2 * Outline.sizeAll (children.map Node.part) + costAll tree parts := by
  induction children with
  | nil => simp [Outline.sizeAll]
  | cons child children ih =>
    obtain ⟨rfl, hchildren⟩ := List.forall_mem_cons.1 h
    rw [List.map_cons, List.cons_append, costAll, ih hchildren, cost_ofChild, List.map_cons,
      Node.part, Outline.sizeAll]
    omega

end SexpPart

theorem tree_eq_of_mem {n child : Node} (h : child ∈ n.namedChildren) : child.tree = n.tree := by
  obtain ⟨hchild, -⟩ := List.mem_filter.1 h
  obtain ⟨id, -, rfl⟩ := List.mem_map.1 hchild
  rfl

/-- The parts are written one after the other, if there are steps enough. -/
theorem writeSexp_eq (h : tree.IsOfParse) {bound : Nat} (out : String) {parts : List SexpPart}
    (hb : SexpPart.costAll tree parts ≤ bound) :
    writeSexp tree bound out parts = out ++ SexpPart.textAll tree parts := by
  induction bound generalizing out parts with
  | zero =>
    cases parts with
    | nil => simp [writeSexp, SexpPart.textAll]
    | cons part parts =>
      have := part.cost_pos tree
      rw [SexpPart.costAll] at hb
      omega
  | succ bound ih =>
    match parts with
    | [] => simp [writeSexp, SexpPart.textAll]
    | .close :: parts =>
      rw [SexpPart.costAll, SexpPart.cost] at hb
      rw [writeSexp, ih _ (by omega), SexpPart.textAll, SexpPart.text, String.append_assoc]
    | .node front id :: parts =>
      have houtline := outline_eq (n := ⟨tree, id⟩) h
      have hsame : ∀ child ∈ (Node.mk tree id).namedChildren, child.tree = tree :=
        fun _ => tree_eq_of_mem
      rw [SexpPart.costAll, SexpPart.cost, houtline, Outline.size] at hb
      -- A node is replaced by its children and a parenthesis, which together cost less.
      have hcost : SexpPart.costAll tree ((Node.mk tree id).namedChildren.map SexpPart.ofChild ++
          .close :: parts) ≤ bound := by
        rw [SexpPart.costAll_append hsame, SexpPart.costAll, SexpPart.cost]
        omega
      have hwrite := ih (out ++ front ++ "(" ++ (Node.mk tree id).kind) hcost
      rw [SexpPart.textAll_append hsame] at hwrite
      rw [writeSexp, SexpPart.textAll, SexpPart.text, houtline, Outline.print]
      refine hwrite.trans ?_
      simp only [SexpPart.textAll, SexpPart.text, String.append_assoc]

/-- With enough fuel for all parts, what is printed is the outline of the node. -/
theorem toSexp_eq {n : Node} (h : n.tree.IsOfParse) (hnamed : n.isNamed = true) :
    n.toSexp = n.outline.print := by
  have hsize := size_outline_le h
  have hcost : SexpPart.costAll n.tree [.node "" n.id] ≤ 2 * n.tree.nodes.size + 1 := by
    rw [SexpPart.costAll, SexpPart.cost, SexpPart.costAll]
    exact Nat.le_succ_of_le (Nat.mul_le_mul_left 2 hsize)
  rw [toSexp, if_pos hnamed, writeSexp_eq h "" hcost]
  simp [SexpPart.textAll, SexpPart.text]

end Node

/-- The names of the kinds and fields of PeoPl are words. -/
theorem Peopl.language_hasPlainNames : Peopl.language.HasPlainNames where
  kinds := by decide +kernel
  fields := by decide +kernel

/-- The names of the kinds and fields of Simpl are words. -/
theorem Simpl.language_hasPlainNames : Simpl.language.HasPlainNames where
  kinds := by decide +kernel
  fields := by decide +kernel

/-- The S-expression of a named node is its printed outline. In a language of plain names it is in
    normal form and tells the outline, and so a test passes only for the outline expected. -/
theorem Node.toSexp_tells_outline {n : Node} (h : n.tree.IsOfParse) (hnamed : n.isNamed = true) :
    n.outline = ⟨n.kind, n.namedChildren.map fun child => (child.fieldName?, child.outline)⟩ ∧
    n.toSexp = n.outline.print ∧
    (n.tree.language.HasPlainNames →
      Sexp.normalize n.toSexp = n.toSexp ∧
      (∀ m : Node, m.tree.IsOfParse → m.isNamed = true → m.tree.language.HasPlainNames →
        m.toSexp = n.toSexp → m.outline = n.outline) ∧
      ∀ (p : Parser) (entry : CorpusEntry) (o : Outline), p.parse entry.input = some n.tree →
        n.id = 0 → o.IsPlain → entry.expected = o.print →
        ((p.runEntry entry).passed = true ↔ n.outline = o)) := by
  have hsexp := toSexp_eq h hnamed
  refine ⟨outline_eq h, hsexp, fun hplain => ?_⟩
  have hwords := isPlain_outline h hplain hnamed
  have hnormal : Sexp.normalize n.toSexp = n.toSexp := by
    rw [hsexp, Outline.normalize_print hwords]
  refine ⟨hnormal, fun m hm hmnamed hmplain heq => ?_, fun p entry o hparse hid ho hentry => ?_⟩
  · rw [hsexp, toSexp_eq hm hmnamed] at heq
    exact Outline.print_inj (isPlain_outline hm hmplain hmnamed) hwords heq
  · have hroot : n.tree.root = n := by
      rw [Tree.root, ← hid]
    have hactual : (p.runEntry entry).actual = n.outline.print := by
      rw [Parser.runEntry, hparse, Option.map_some, Option.getD_some, hroot, hnormal, hsexp]
    rw [CorpusOutcome.passed, beq_iff_eq, hactual]
    constructor
    · intro hpassed
      exact Outline.print_inj hwords ho (hpassed.symm.trans hentry)
    · rintro rfl
      exact hentry

theorem Node.toSexp_tells_outline_not :
    (Tree.parse Simpl.language "not x").root.isNamed = true ∧
    (Tree.parse Simpl.language "not x").root.toSexp =
      "(source_file (unary_expression operand: (field_identifier)))" ∧
    (Tree.parse Simpl.language "not x").root.toSexp =
      (Tree.parse Simpl.language "not x").root.outline.print ∧
    Sexp.normalize (Tree.parse Simpl.language "not x").root.toSexp =
      (Tree.parse Simpl.language "not x").root.toSexp :=
  have hnamed : (Tree.parse Simpl.language "not x").root.isNamed = true := by cbv
  have h := toSexp_tells_outline ⟨Simpl.language, "not x", _, rfl⟩ hnamed
  ⟨hnamed, by decide +kernel, h.2.1, (h.2.2 Simpl.language_hasPlainNames).1⟩

end GrammarTools
