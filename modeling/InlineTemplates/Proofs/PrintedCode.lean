import InlineTemplates.Proofs.PrintedComments

/-!
# Code between comments

With other comments in a tree, only the comments in what is printed for it are others: the code
between them does not depend on what they say. What a template prints is code as a whole, with the
comments in its holes, so the comments there stay. All others are pieces of what is printed, and
none of them takes in the code behind it.
-/

namespace InlineTemplates

/-! ## Trees with other comments -/

def Head.mapComments (f : Text → Text) (head : Head) : Head :=
  { head with comments := head.comments.map f }

namespace Node

mutual

/-- The tree with every comment outside templates changed by `f`. -/
def mapComments (f : Text → Text) : Node → Node
  | .mk head .template slots => .mk (head.mapComments f) .template slots
  | .mk head .tagged (tag :: rest) =>
    .mk (head.mapComments f) .tagged (mapCommentsOfList f tag :: rest)
  | .mk head form slots =>
    .mk (head.mapComments f) (form.mapTrailing (·.map f)) (mapCommentsOfSlots f slots)

def mapCommentsOfSlots (f : Text → Text) : List (List Node) → List (List Node)
  | [] => []
  | ns :: slots => mapCommentsOfList f ns :: mapCommentsOfSlots f slots

def mapCommentsOfList (f : Text → Text) : List Node → List Node
  | [] => []
  | n :: ns => mapComments f n :: mapCommentsOfList f ns

end

variable {f : Text → Text}

@[simp] theorem comments_mapComments (n : Node) :
    (n.mapComments f).comments = n.comments.map f := by
  fun_cases mapComments f n <;> rfl

@[simp] theorem form_mapComments (n : Node) :
    (n.mapComments f).form = n.form.mapTrailing (·.map f) := by
  fun_cases mapComments f n <;> rfl

@[simp] theorem precedence_mapComments (n : Node) :
    Print.precedence (n.mapComments f) = Print.precedence n := by
  unfold Print.precedence
  rw [form_mapComments]
  cases n.form <;> rfl

@[simp] theorem ident?_mapComments (n : Node) : (n.mapComments f).ident? = n.ident? := by
  obtain ⟨head, form, slots⟩ := n
  cases form <;> cases slots <;> rfl

@[simp] theorem string?_mapComments (n : Node) : (n.mapComments f).string? = n.string? := by
  obtain ⟨head, form, slots⟩ := n
  cases form with
  | literal value => cases value <;> cases slots <;> rfl
  | _ => cases slots <;> rfl

theorem isEmpty_slots_mapComments (n : Node) :
    (n.mapComments f).slots.map List.isEmpty = n.slots.map List.isEmpty := by
  have hlist (ns : List Node) : (mapCommentsOfList f ns).isEmpty = ns.isEmpty := by
    cases ns <;> rfl
  have hslots (slots : List (List Node)) :
      (mapCommentsOfSlots f slots).map List.isEmpty = slots.map List.isEmpty := by
    induction slots with
    | nil => rfl
    | cons ns slots ih =>
      rw [mapCommentsOfSlots, List.map_cons, List.map_cons, hlist, ih]
  fun_cases mapComments f n with
  | case1 => rfl
  | case2 head tag rest => exact congrArg (· :: _) (hlist tag)
  | case3 head form slots => exact hslots slots

@[simp] theorem source?_mapComments (n : Node) : (n.mapComments f).source? = n.source? := by
  have hempty (specs : List Slot) (slots : List (List Node)) :
      (specs.zip slots).any (fun s => s.1.name = "value" && s.2.isEmpty) =
        (specs.zip (slots.map List.isEmpty)).any fun s => s.1.name = "value" && s.2 := by
    rw [List.zip_map_right, List.any_map]
    rfl
  have hvalue : (n.form.slots.zip (n.mapComments f).slots).any
        (fun s => s.1.name = "value" && s.2.isEmpty) =
      (n.form.slots.zip n.slots).any fun s => s.1.name = "value" && s.2.isEmpty := by
    rw [hempty, hempty, isEmpty_slots_mapComments]
  obtain ⟨head, form, slots⟩ := n
  have hmissing := congrArg (fun b : Bool => if b then some Literal.null else none) hvalue
  cases form with
  | literal value =>
    cases slots with
    | nil => rfl
    | cons => exact hmissing
  | tagged => cases slots <;> exact hmissing
  | _ => exact hmissing

@[simp] theorem isSameName_mapComments (a b : Node) :
    Print.isSameName (a.mapComments f) (b.mapComments f) = Print.isSameName a b := by
  obtain ⟨head, form, slots⟩ := a
  cases form with
  | name x =>
    cases slots with
    | nil =>
      obtain ⟨head', form', slots'⟩ := b
      cases form' <;> cases slots' <;> rfl
    | cons => rfl
  | _ => cases slots <;> rfl

@[simp] theorem startsAmbiguously_mapComments (n : Node) :
    Print.startsAmbiguously (n.mapComments f) = Print.startsAmbiguously n := by
  fun_induction Print.startsAmbiguously n with
  | case12 n hobject hfunction hclass hcall hattr hindex htagged hupdate hbinary hassign hternary =>
    obtain ⟨head, form, slots⟩ := n
    -- without the parts that its form asks for a node starts with nothing
    cases form with
    | object => rcases slots with _ | ⟨_, _ | _⟩ <;> first | rfl | exact (hobject _ _ rfl).elim
    | function =>
      rcases slots with _ | ⟨_, _ | ⟨_, _ | ⟨_ | ⟨_, _ | _⟩, _ | _⟩⟩⟩ <;>
        first | rfl | exact (hfunction _ _ _ _ _ rfl).elim
    | classExpr =>
      rcases slots with _ | ⟨_, _ | ⟨_, _ | ⟨_ | ⟨_, _ | _⟩, _ | _⟩⟩⟩ <;>
        first | rfl | exact (hclass _ _ _ _ rfl).elim
    | call =>
      rcases slots with _ | ⟨_ | ⟨_, _ | _⟩, _ | ⟨_, _ | _⟩⟩ <;>
        first | rfl | exact (hcall _ _ _ _ rfl).elim
    | attr =>
      rcases slots with _ | ⟨_ | ⟨_, _ | _⟩, _ | _⟩ <;>
        first | rfl | exact (hattr _ _ _ _ rfl).elim
    | index =>
      rcases slots with _ | ⟨_ | ⟨_, _ | _⟩, _ | ⟨_ | ⟨_, _ | _⟩, _ | _⟩⟩ <;>
        first | rfl | exact (hindex _ _ _ _ rfl).elim
    | tagged =>
      rcases slots with _ | ⟨_ | ⟨_, _ | _⟩, _ | ⟨_ | ⟨_, _ | _⟩, _ | _⟩⟩ <;>
        first | rfl | exact (htagged _ _ _ rfl).elim
    | update _ inFront =>
      cases inFront <;> rcases slots with _ | ⟨_ | ⟨_, _ | _⟩, _ | _⟩ <;>
        first | rfl | exact (hupdate _ _ _ rfl).elim
    | binary =>
      rcases slots with _ | ⟨_ | ⟨_, _ | _⟩, _ | ⟨_ | ⟨_, _ | _⟩, _ | _⟩⟩ <;>
        first | rfl | exact (hbinary _ _ _ _ rfl).elim
    | assign =>
      rcases slots with _ | ⟨_ | ⟨_, _ | _⟩, _ | ⟨_ | ⟨_, _ | _⟩, _ | _⟩⟩ <;>
        first | rfl | exact (hassign _ _ _ _ rfl).elim
    | ternary =>
      rcases slots with _ | ⟨_ | ⟨_, _ | _⟩, _ | ⟨_ | ⟨_, _ | _⟩, _ | ⟨_ | ⟨_, _ | _⟩, _ | _⟩⟩⟩ <;>
        first | rfl | exact (hternary _ _ _ _ rfl).elim
    | _ => rfl
  | _ => simp_all [mapComments, mapCommentsOfSlots, mapCommentsOfList, Print.startsAmbiguously,
      Form.mapTrailing]

@[simp] theorem moduleName_mapComments (n : Node) :
    Print.moduleName (n.mapComments f) = Print.moduleName n := by
  simp [Print.moduleName]

theorem importHead?_mapComments (n : Node) :
    Print.importHead? (n.mapComments f) = Print.importHead? n := by
  obtain ⟨head, form, slots⟩ := n
  cases form with
  | importDefault | importNamespace =>
    rcases slots with _ | ⟨_ | ⟨localName, _ | _⟩, _ | _⟩
    case cons.cons.nil.nil =>
      simp [mapComments, mapCommentsOfSlots, mapCommentsOfList, Print.importHead?,
        Form.mapTrailing]
    all_goals rfl
  | tagged => cases slots <;> rfl
  | _ => rfl

theorem importNamed?_mapComments (n : Node) :
    Print.importNamed? (n.mapComments f) = Print.importNamed? n := by
  obtain ⟨head, form, slots⟩ := n
  cases form with
  | importNamed =>
    rcases slots with _ | ⟨_ | ⟨_, _ | _⟩, _ | ⟨_ | ⟨_, _ | _⟩, _ | _⟩⟩
    case cons.cons.nil.cons.cons.nil.nil =>
      simp [mapComments, mapCommentsOfSlots, mapCommentsOfList, Print.importNamed?,
        Form.mapTrailing]
    all_goals rfl
  | tagged => cases slots <;> rfl
  | _ => rfl

theorem importDecl_mapComments (specifiers : List Node) (source : Node) :
    Print.importDecl (specifiers.map (mapComments f)) (source.mapComments f) =
      Print.importDecl specifiers source := by
  have hhead : Print.importHead? ∘ mapComments f = Print.importHead? :=
    funext importHead?_mapComments
  have hnamed : Print.importNamed? ∘ mapComments f = Print.importNamed? :=
    funext importNamed?_mapComments
  simp only [Print.importDecl, List.filterMap_map, hhead, hnamed, List.isEmpty_map,
    Print.sourceText, source?_mapComments]

theorem exportSpecifier_mapComments (n : Node) :
    Print.exportSpecifier (n.mapComments f) = Print.exportSpecifier n := by
  obtain ⟨head, form, slots⟩ := n
  cases form with
  | exportSpecifier =>
    rcases slots with _ | ⟨_ | ⟨_, _ | _⟩, _ | ⟨_ | ⟨_, _ | _⟩, _ | _⟩⟩
    case cons.cons.nil.cons.cons.nil.nil | cons.cons.nil.cons.nil.nil |
        cons.cons.nil.cons.cons.cons.nil =>
      simp [mapComments, mapCommentsOfSlots, mapCommentsOfList, Print.exportSpecifier,
        Form.mapTrailing]
    all_goals rfl
  | tagged => cases slots <;> rfl
  | _ => rfl

theorem exportList_mapComments (specifiers source : List Node) :
    Print.exportList (specifiers.map (mapComments f)) (source.map (mapComments f)) =
      Print.exportList specifiers source := by
  have hspecifier : Print.exportSpecifier ∘ mapComments f = Print.exportSpecifier :=
    funext exportSpecifier_mapComments
  have hsource : Print.sourceText ∘ mapComments f = Print.sourceText := by
    funext n
    simp [Print.sourceText]
  simp only [Print.exportList, List.map_map, hspecifier, hsource]

end Node

/-! ## Pieces with other comments -/

def Piece.mapComment (f : Text → Text) : Piece → Piece
  | code t => code t
  | line comment => line (f comment)
  | inside comment => inside (f comment)

namespace Pieces

/-- The pieces with their comments changed by `f`. -/
def mapComments (f : Text → Text) (ps : Pieces) : Pieces := ps.map (Piece.mapComment f)

variable {f : Text → Text} {ps : Pieces} {pss : List Pieces}

@[simp] theorem mapComments_code (t : Text) : mapComments f (code t) = code t := rfl

@[simp] theorem mapComments_append (ps qs : Pieces) :
    mapComments f (ps ++ qs) = mapComments f ps ++ mapComments f qs := List.map_append

@[simp] theorem mapComments_ite {p : Prop} [Decidable p] (ps qs : Pieces) :
    mapComments f (if p then ps else qs) =
      if p then mapComments f ps else mapComments f qs := apply_ite ..

@[simp] theorem mapComments_inlineComments (comments : List Text) :
    mapComments f (inlineComments comments) = inlineComments (comments.map f) := by
  simp [mapComments, inlineComments, Piece.mapComment]

@[simp] theorem mapComments_line (level : Nat) (comments : List Text) (ps : Pieces) :
    mapComments f (line level comments ps) = line level (comments.map f) (mapComments f ps) := by
  simp [mapComments, line, code, Piece.mapComment, List.map_flatMap, List.flatMap_map]

@[simp] theorem mapComments_join (sep : Text) (pss : List Pieces) :
    mapComments f (join sep pss) = join sep (pss.map (mapComments f)) := by
  unfold join
  induction pss with
  | nil => rfl
  | cons ps pss ih =>
    cases pss with
    | nil => simp
    | cons qs pss =>
      rw [List.intercalate_cons_cons, mapComments_append, mapComments_append, ih, mapComments_code]
      exact List.intercalate_cons_cons.symm

@[simp] theorem mapComments_braced (level : Nat) (lines : List Pieces) (trailing : List Text)
    (sep : Text) : mapComments f (braced level lines trailing sep) =
      braced level (lines.map (mapComments f)) (trailing.map f) sep := by
  have htrailing : ((trailing.map fun c =>
      [.code (Print.indentation (level + 1)), Piece.line c]).map (mapComments f)) =
      (trailing.map f).map fun c => [.code (Print.indentation (level + 1)), Piece.line c] := by
    simp [mapComments, Piece.mapComment]
  unfold braced
  rw [mapComments_ite]
  simp only [List.isEmpty_map, mapComments_append, mapComments_join, List.map_append, htrailing,
    mapComments_code]

@[simp] theorem mapComments_parenthesized (ps : Pieces) :
    mapComments f (parenthesized ps) = parenthesized (mapComments f ps) := by
  simp [parenthesized]

@[simp] theorem mapComments_commas (pss : List Pieces) :
    mapComments f (commas pss) = commas (pss.map (mapComments f)) := mapComments_join ", " pss

@[simp] theorem mapComments_behind (before : Text) (pss : List Pieces) :
    mapComments f (behind before pss) = behind before (pss.map (mapComments f)) := by
  simp [behind, mapComments, List.map_flatMap, List.flatMap_map, code, Piece.mapComment]

@[simp] theorem mapComments_varDecl (kind : VarKind) (pss : List Pieces) :
    mapComments f (varDecl kind pss) = varDecl kind (pss.map (mapComments f)) := by
  simp [varDecl]

theorem head?_inlineComment (c : Text) : (Print.inlineComment c).head? = c.head? := by
  unfold Print.inlineComment
  split
  · next h =>
    obtain ⟨rest, rfl⟩ := List.isPrefixOf_iff_prefix.1 h
    rfl
  · rfl

theorem head?_text_mapComments (hf : ∀ c, (f c).head? = c.head?) (ps : Pieces) :
    (text (mapComments f ps)).head? = (text ps).head? := by
  induction ps with
  | nil => rfl
  | cons p ps ih =>
    have hp : (p.mapComment f).text.head? = p.text.head? := by
      cases p with
      | code => rfl
      | line c => exact hf c
      | inside c => exact (head?_inlineComment _).trans ((hf c).trans (head?_inlineComment c).symm)
    change (_ ++ text (mapComments f ps)).head? = (_ ++ text ps).head?
    rw [List.head?_append, List.head?_append, hp, ih]

end Pieces

/-! ## Parts with other comments -/

namespace Part

open Pieces

def mapComments (f : Text → Text) (p : Part) : Part :=
  ⟨p.node.mapComments f, fun level => (p.pieces level).mapComments f⟩

variable {f : Text → Text} {p : Part}

@[simp] theorem node_mapComments (p : Part) : (p.mapComments f).node = p.node.mapComments f := rfl

@[simp] theorem pieces_mapComments (p : Part) (level : Nat) :
    (p.mapComments f).pieces level = (p.pieces level).mapComments f := rfl

theorem map_node_mapComments (ps : List Part) :
    (ps.map (mapComments f)).map node = (ps.map node).map (Node.mapComments f) := by
  rw [List.map_map, List.map_map]
  rfl

@[simp] theorem placed_mapComments (p : Part) (least level : Nat) :
    (p.mapComments f).placed least level = (p.placed least level).mapComments f := by
  simp [placed]

@[simp] theorem operand_mapComments (p : Part) (op : BinaryOp) (least level : Nat) :
    (p.mapComments f).operand op least level = (p.operand op least level).mapComments f := by
  unfold operand
  rw [node_mapComments, Node.form_mapComments]
  cases p.node.form with
  | binary inner => simp [Form.mapTrailing]
  | _ => exact placed_mapComments p least level

theorem unary_mapComments (hf : ∀ c, (f c).head? = c.head?) (p : Part) (op : UnaryOp)
    (level : Nat) : (p.mapComments f).unary op level = (p.unary op level).mapComments f := by
  -- the space behind the operator depends on what the operand starts with
  have hprefix (l : Text) {t u : Text} (h : t.head? = u.head?) :
      (l.take 1).isPrefixOf t = (l.take 1).isPrefixOf u := by
    cases l with
    | nil => simp
    | cons c l => cases t <;> cases u <;> simp_all [List.isPrefixOf]
  have hhead := head?_text_mapComments hf (p.placed Precedence.unary level)
  simp only [unary, placed_mapComments, hprefix op.text hhead, mapComments_append,
    mapComments_code]

@[simp] theorem memberKey_mapComments (p : Part) (computed : Bool) (level : Nat) :
    (p.mapComments f).memberKey computed level = (p.memberKey computed level).mapComments f := by
  simp [memberKey]

@[simp] theorem property_mapComments (key value : Part) (computed shorthand : Bool) (level : Nat) :
    property computed shorthand level (key.mapComments f) (value.mapComments f) =
      (property computed shorthand level key value).mapComments f := by
  unfold property
  simp only [node_mapComments, Node.isSameName_mapComments, Node.ident?_mapComments]
  cases shorthand && Print.isSameName key.node value.node with
  | false => simp
  | true => cases key.node.ident? <;> simp

@[simp] theorem method_mapComments (role : MethodRole) (isAsync computed : Bool) (level : Nat)
    (key : Part) (params : List Part) (body : Part) :
    method role isAsync computed level (key.mapComments f) (params.map (mapComments f))
        (body.mapComments f) =
      (method role isAsync computed level key params body).mapComments f := by
  simp [method, Function.comp_def]

@[simp] theorem behindHead_mapComments (p : Part) (level : Nat) :
    (p.mapComments f).behindHead level = (p.behindHead level).mapComments f := by
  simp [behindHead]

@[simp] theorem arrowBody_mapComments (p : Part) (level : Nat) :
    (p.mapComments f).arrowBody level = (p.arrowBody level).mapComments f := by
  unfold arrowBody
  rw [node_mapComments, Node.form_mapComments]
  cases p.node.form with
  | object => simp [Form.mapTrailing]
  | block => rfl
  | _ => exact placed_mapComments p _ level

@[simp] theorem loopStart_mapComments (ps : List Part) (level : Nat) :
    loopStart level (ps.map (mapComments f)) = (loopStart level ps).mapComments f := by
  rcases ps with _ | ⟨⟨⟨head, form, slots⟩, pieces⟩, rest⟩
  · rfl
  · have hplaced := placed_mapComments (f := f) ⟨.mk head form slots, pieces⟩ 0 level
    cases form with
    | varDecl kind =>
      rcases slots with _ | ⟨_, _ | _⟩ <;> cases rest <;>
        first | rfl | exact hplaced | exact List.map_dropLast.symm
    | tagged => cases slots <;> cases rest <;> first | rfl | exact hplaced
    | _ => cases rest <;> first | rfl | exact hplaced

@[simp] theorem lines_mapComments (ps : List Part) (level : Nat) :
    lines level (ps.map (mapComments f)) = (lines level ps).map (Pieces.mapComments f) := by
  simp [lines, Function.comp_def]

end Part

/-! ## Nodes -/

namespace Pieces

open InlineTemplates.Part

variable {f : Text → Text}

theorem ofForm_mapComments (hf : ∀ c, (f c).head? = c.head?) (level : Nat) (head : Head)
    {form : Form} (htemplate : form ≠ .template) (htagged : form ≠ .tagged)
    (parts : List (List Part)) :
    ofForm level (head.mapComments f) (form.mapTrailing (·.map f))
        (parts.map (·.map (Part.mapComments f))) =
      (ofForm level head form parts).mapComments f := by
  cases form with
  | template => exact absurd rfl htemplate
  | tagged => exact absurd rfl htagged
  | name | literal | quasi | emptyStmt | breakStmt | continueStmt => cases parts <;> rfl
  | importDefault | importNamespace | importNamed | exportSpecifier => rfl
  | spread | attr | unary | update | exprStmt | throwStmt =>
    rcases parts with _ | ⟨_ | ⟨_, _ | _⟩, _ | _⟩
    case cons.cons.nil.nil =>
      unfold ofForm
      simp [Form.mapTrailing, unary_mapComments hf]
    all_goals rfl
  | exportDefault =>
    rcases parts with _ | ⟨_ | ⟨value, _ | _⟩, _ | _⟩
    case cons.cons.nil.nil =>
      unfold ofForm
      simp only [Form.mapTrailing, List.map_cons, List.map_nil, node_mapComments,
        Node.form_mapComments, Node.comments_mapComments, List.isEmpty_map, placed_mapComments,
        mapComments_append, mapComments_code]
      -- a function and a class end the line if they have no comments
      cases value.node.form <;> rfl
    all_goals rfl
  | array | object | block | returnStmt | varDecl | classBody =>
    rcases parts with _ | ⟨_, _ | _⟩
    case cons.nil =>
      unfold ofForm
      simp [Form.mapTrailing, Function.comp_def]
    all_goals rfl
  | call | new | param | declarator | classProperty =>
    rcases parts with _ | ⟨_ | ⟨_, _ | _⟩, _ | ⟨_, _ | _⟩⟩
    case cons.cons.nil.cons.nil =>
      unfold ofForm
      simp [Form.mapTrailing, Function.comp_def]
    all_goals rfl
  | index | binary | assign | property | whileStmt | doWhile =>
    rcases parts with _ | ⟨_ | ⟨_, _ | _⟩, _ | ⟨_ | ⟨_, _ | _⟩, _ | _⟩⟩
    case cons.cons.nil.cons.cons.nil.nil =>
      unfold ofForm
      simp [Form.mapTrailing]
    all_goals rfl
  | ternary | forIn =>
    rcases parts with _ | ⟨_ | ⟨_, _ | _⟩, _ | ⟨_ | ⟨_, _ | _⟩, _ | ⟨_ | ⟨_, _ | _⟩, _ | _⟩⟩⟩
    case cons.cons.nil.cons.cons.nil.cons.cons.nil.nil =>
      unfold ofForm
      simp [Form.mapTrailing]
    all_goals rfl
  | arrow | catchClause =>
    rcases parts with _ | ⟨_, _ | ⟨_ | ⟨_, _ | _⟩, _ | _⟩⟩
    case cons.cons.cons.nil.nil =>
      unfold ofForm
      simp [Form.mapTrailing, Function.comp_def]
    all_goals rfl
  | function | classExpr | classDecl =>
    rcases parts with _ | ⟨_, _ | ⟨_, _ | ⟨_ | ⟨_, _ | _⟩, _ | _⟩⟩⟩
    case cons.cons.cons.cons.nil.nil =>
      unfold ofForm
      simp [Form.mapTrailing, Function.comp_def]
    all_goals rfl
  | objectMethod | functionDecl | classMethod =>
    rcases parts with _ | ⟨_ | ⟨_, _ | _⟩, _ | ⟨_, _ | ⟨_ | ⟨_, _ | _⟩, _ | _⟩⟩⟩
    case cons.cons.nil.cons.cons.cons.nil.nil =>
      unfold ofForm
      simp [Form.mapTrailing, Function.comp_def]
    all_goals rfl
  | ifStmt =>
    rcases parts with _ | ⟨_ | ⟨_, _ | _⟩, _ | ⟨_ | ⟨_, _ | _⟩, _ | ⟨_, _ | _⟩⟩⟩
    case cons.cons.nil.cons.cons.nil.cons.nil =>
      unfold ofForm
      simp [Form.mapTrailing, Function.comp_def]
    all_goals rfl
  | tryStmt =>
    rcases parts with _ | ⟨_ | ⟨_, _ | _⟩, _ | ⟨_, _ | ⟨_, _ | _⟩⟩⟩
    case cons.cons.nil.cons.cons.nil =>
      unfold ofForm
      simp [Form.mapTrailing, Function.comp_def]
    all_goals rfl
  | forStmt =>
    rcases parts with _ | ⟨_, _ | ⟨_, _ | ⟨_, _ | ⟨_ | ⟨_, _ | _⟩, _ | _⟩⟩⟩⟩
    case cons.cons.cons.cons.cons.nil.nil =>
      unfold ofForm
      simp [Form.mapTrailing, Function.comp_def]
    all_goals rfl
  | importDecl =>
    rcases parts with _ | ⟨specifiers, _ | ⟨_ | ⟨source, _ | _⟩, _ | _⟩⟩
    case cons.cons.cons.nil.nil =>
      change code (Print.importDecl ((specifiers.map (Part.mapComments f)).map node)
        (source.node.mapComments f)) = code (Print.importDecl (specifiers.map node) source.node)
      rw [map_node_mapComments, Node.importDecl_mapComments]
    all_goals rfl
  | exportNamed =>
    rcases parts with _ | ⟨_ | ⟨declaration, _⟩, _ | ⟨specifiers, _ | ⟨source, _ | _⟩⟩⟩
    case cons.nil.cons.cons.nil =>
      change code (Print.exportList ((specifiers.map (Part.mapComments f)).map node)
        ((source.map (Part.mapComments f)).map node)) =
        code (Print.exportList (specifiers.map node) (source.map node))
      rw [map_node_mapComments, map_node_mapComments, Node.exportList_mapComments]
    case cons.cons.cons.cons.nil =>
      unfold ofForm
      simp [Form.mapTrailing]
    all_goals rfl
  | program =>
    rcases parts with _ | ⟨body, _ | _⟩
    case cons.nil =>
      unfold ofForm
      simp [Form.mapTrailing, mapComments, List.map_flatMap, List.flatMap_map, code,
        Piece.mapComment]
    all_goals rfl

theorem ofForm_tagged_mapComments (level : Nat) (head : Head) (tag : List Part)
    (rest : List (List Part)) :
    ofForm level (head.mapComments f) .tagged (tag.map (Part.mapComments f) :: rest) =
      (ofForm level head .tagged (tag :: rest)).mapComments f := by
  rcases tag with _ | ⟨_, _ | _⟩ <;> rcases rest with _ | ⟨_ | ⟨_, _ | _⟩, _ | _⟩
  case cons.nil.cons.cons.nil.nil =>
    unfold ofForm
    simp
  all_goals rfl

mutual

theorem partOf_mapComments (hf : ∀ c, (f c).head? = c.head?) :
    ∀ n, partOf (n.mapComments f) = (partOf n).mapComments f
  | .mk head form slots => by
    have hslots := partsOfSlots_mapComments hf slots
    by_cases htemplate : form = .template
    · subst htemplate
      -- a template is printed without its head
      refine congrArg (Part.mk _) (funext fun level => ?_)
      rcases slots with _ | ⟨_, _ | ⟨_, _ | _⟩⟩ <;> rfl
    by_cases htagged : form = .tagged
    · subst htagged
      cases slots with
      | nil => rfl
      | cons tag rest =>
        refine congrArg (Part.mk _) (funext fun level => ?_)
        rw [partsOfSlots, partsOf_mapComments hf tag]
        exact ofForm_tagged_mapComments ..
    · have hmap : Node.mapComments f (.mk head form slots) = .mk (head.mapComments f)
          (form.mapTrailing (·.map f)) (Node.mapCommentsOfSlots f slots) := by
        cases form with
        | template => exact absurd rfl htemplate
        | tagged => exact absurd rfl htagged
        | _ => rfl
      rw [hmap, partOf, hslots]
      exact congrArg₂ Part.mk hmap.symm
        (funext fun level => ofForm_mapComments hf level head htemplate htagged _)

theorem partsOfSlots_mapComments (hf : ∀ c, (f c).head? = c.head?) : ∀ slots,
    partsOfSlots (Node.mapCommentsOfSlots f slots) =
      (partsOfSlots slots).map (·.map (Part.mapComments f))
  | [] => rfl
  | ns :: slots => by
    rw [Node.mapCommentsOfSlots, partsOfSlots, partsOfSlots, partsOf_mapComments hf ns,
      partsOfSlots_mapComments hf slots]
    rfl

theorem partsOf_mapComments (hf : ∀ c, (f c).head? = c.head?) : ∀ ns,
    partsOf (Node.mapCommentsOfList f ns) = (partsOf ns).map (Part.mapComments f)
  | [] => rfl
  | n :: ns => by
    rw [Node.mapCommentsOfList, partsOf, partsOf, partOf_mapComments hf n,
      partsOf_mapComments hf ns]
    rfl

end

/-- With other comments outside its templates, a tree is printed with the same code between
them. -/
theorem ofProgram_mapComments (hf : ∀ c, (f c).head? = c.head?) (n : Node) :
    ofProgram (n.mapComments f) = (ofProgram n).mapComments f :=
  congrFun (congrArg Part.pieces (partOf_mapComments hf n)) 0

theorem ofStatement_mapComments (hf : ∀ c, (f c).head? = c.head?) (n : Node) (level : Nat) :
    ofStatement (n.mapComments f) level = (ofStatement n level).mapComments f := by
  rw [ofStatement, ofStatement, mapComments_line, Node.comments_mapComments,
    partOf_mapComments hf n]
  rfl

theorem ofExpression_mapComments (hf : ∀ c, (f c).head? = c.head?) (n : Node)
    (level least : Nat) :
    ofExpression (n.mapComments f) level least = (ofExpression n level least).mapComments f := by
  rw [ofExpression, ofExpression, partOf_mapComments hf n, placed_mapComments]

/-! ## Comments in what is printed -/

/-- The text is printed for a tree. With other comments in the tree, those among its pieces are
others and the code between them stays. Each comment is a lexeme that ends where the comment ends,
whatever is printed behind it. -/
structure Contain (pieces : Node → Pieces) (n : Node) (t : Text) : Prop where
  text_eq : text (pieces n) = t
  comments_eq {f : Text → Text} (hf : ∀ c, (f c).head? = c.head?) :
    pieces (n.mapComments f) = (pieces n).mapComments f
  lexeme {p : Piece} {comment : Text} (before after : Pieces)
    (h : pieces n = before ++ p :: after) (hp : p.comment? = some comment)
    (hcomment : IsShown comment) :
    Lexeme.next? (p.text ++ text after) = some (.comment, p.text.length)

/-- No comment that is printed ends early or goes on into what is printed behind it. -/
theorem contain_comments (n : Node) :
    Contain ofProgram n n.programText ∧
      (∀ level, Contain (ofStatement · level) n
        (Print.line level n.comments (Print.text level n))) ∧
      ∀ level least, Contain (ofExpression · level least) n (n.expressionText level least) := by
  refine ⟨?_, fun level => ?_, fun level least => ?_⟩
  · have h := compose_ofProgram n
    exact ⟨h.text_eq, fun hf => ofProgram_mapComments hf n, h.next?_comment⟩
  · have h := compose_ofStatement n level
    exact ⟨h.text_eq, fun hf => ofStatement_mapComments hf n level, h.next?_comment⟩
  · have h := compose_ofExpression n level least
    exact ⟨h.text_eq, fun hf => ofExpression_mapComments hf n level least, h.next?_comment⟩

/-- A statement with a comment of a line in front of it, behind it and inside it. -/
def commented : Node :=
  .program .fresh ["// c"] [.exprStmt ⟨none, ["// a"]⟩ (.name ⟨none, ["// b*/"]⟩ "x")]

theorem contain_comments_commented :
    commented.programText = "// a\n/* b*\\/*/x;\n// c\n" ∧
      Lexeme.next? ("// a\n/* b*\\/*/x;\n// c\n" : String) = some (.comment, 4) ∧
      Lexeme.next? ("/* b*\\/*/x;\n// c\n" : String) = some (.comment, 9) ∧
      Lexeme.next? ("// c\n" : String) = some (.comment, 4) := by
  have hcontain := (contain_comments commented).1
  have hshown (c : Text) (s : Scan) (hs : Scan.scan c = .ok s)
      (hc : s.comments.map Comment.text = [c]) : IsShown c := by
    obtain ⟨k, hk, hck⟩ := List.mem_map.1 (hc ▸ List.mem_singleton_self c)
    exact .inl ⟨c, s, hs, k, hk, hck⟩
  refine ⟨rfl, ?_, ?_, ?_⟩
  · exact hcontain.lexeme [.code []] _ rfl rfl (hshown _ _ rfl rfl)
  · exact hcontain.lexeme [.code [], .line "// a", .code "\n", .code []] _ rfl rfl
      (hshown _ _ rfl rfl)
  · exact hcontain.lexeme [.code [], .line "// a", .code "\n", .code [], .inside "// b*/",
      .code "x", .code ";", .code "\n"] _ rfl rfl (hshown _ _ rfl rfl)

end Pieces

end InlineTemplates
