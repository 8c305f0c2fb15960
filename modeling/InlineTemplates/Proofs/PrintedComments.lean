import InlineTemplates.Proofs.CommentTexts
import InlineTemplates.Proofs.Pieces
import Mathlib.Data.List.Forall2

/-!
# Comments that are printed

A comment of a line has a line break behind it wherever it is printed, and a comment inside a line
is a block comment. So what is printed behind a comment is not part of it.
-/

namespace InlineTemplates

namespace Print

/-! ## Texts -/

def loopStart (level : Nat) : List Node → Text
  | [.varDecl _ kind declarations] => varDecl kind (texts level declarations)
  | [e] => placed 0 e (text level e)
  | _ => []

theorem text_forStmt (level : Nat) (head : Head) (initial test update : List Node) (body : Node) :
    text level (.forStmt head initial test update body) =
      "for " ++ parenthesized (loopStart level initial ++ ";" ++
        behind " " (placedAll 0 test (texts level test)) ++ ";" ++
        behind " " (placedAll 0 update (texts level update))) ++
        behindHead body (text level body) := by
  rcases initial with _ | ⟨⟨own, form, slots⟩, rest⟩
  · rfl
  · -- the printer looks at the node in front of the list behind it
    cases form with
    | varDecl kind => rcases slots with _ | ⟨_, _ | _⟩ <;> cases rest <;> rfl
    | _ => cases rest <;> rfl

theorem texts_eq_map (level : Nat) (ns : List Node) : texts level ns = ns.map (text level) := by
  induction ns with
  | nil => rfl
  | cons n ns ih => exact congrArg (_ :: ·) ih

theorem zipWith_texts (f : Node → Text → Text) (level : Nat) (ns : List Node) :
    List.zipWith f ns (texts level ns) = ns.map fun n => f n (text level n) := by
  rw [Print.texts_eq_map, List.zipWith_map_right, List.zipWith_self]

theorem lines_eq_map (level : Nat) (ns : List Node) :
    lines level ns = ns.map fun n => line level n.comments (text level n) := by
  induction ns with
  | nil => rfl
  | cons n ns ih => exact congrArg (_ :: ·) ih

end Print

namespace Pieces

variable {ps qs : Pieces} {t u : Text} {pss : List Pieces} {ts : List Text}

@[simp] theorem text_code (t : Text) : text (code t) = t := List.append_nil t

@[simp] theorem text_append (ps qs : Pieces) : text (ps ++ qs) = text ps ++ text qs :=
  List.flatMap_append

theorem text_join (sep : Text) (pss : List Pieces) :
    text (join sep pss) = Text.join sep (pss.map text) := by
  unfold join Text.join
  induction pss with
  | nil => rfl
  | cons ps pss ih =>
    cases pss with
    | nil => simp
    | cons qs pss =>
      rw [List.intercalate_cons_cons, text_append, text_append, ih, text_code]
      exact List.intercalate_cons_cons.symm

/-! ## Lines -/

/-- Each comment on a line of its own ends with its line, where `behind` follows. -/
def EndsLines : Pieces → Text → Prop
  | [], _ => True
  | .line _ :: rest, behind => (text rest ++ behind).head? = some '\n' ∧ EndsLines rest behind
  | .code _ :: rest, behind | .inside _ :: rest, behind => EndsLines rest behind

theorem endsLines_append :
    EndsLines (ps ++ qs) t ↔ EndsLines ps (text qs ++ t) ∧ EndsLines qs t := by
  induction ps with
  | nil => exact ⟨fun h => ⟨trivial, h⟩, And.right⟩
  | cons p ps ih =>
    cases p with
    | line comment =>
      simp only [List.cons_append, EndsLines, text_append, List.append_assoc, ih, and_assoc]
    | code | inside => exact ih

theorem EndsLines.append_right (h : EndsLines ps t) (u : Text) : EndsLines ps (t ++ u) := by
  induction ps with
  | nil => trivial
  | cons p ps ih =>
    cases p with
    | line comment =>
      refine ⟨?_, ih h.2⟩
      rw [← List.append_assoc, List.head?_append, h.1]
      rfl
    | code | inside => exact ih h

theorem endsLines_join {sep : Text} (hsep : ∀ ps ∈ pss, EndsLines ps sep)
    (h : ∀ ps ∈ pss, EndsLines ps t) : EndsLines (join sep pss) t := by
  unfold join
  induction pss with
  | nil => trivial
  | cons ps pss ih =>
    obtain ⟨hp, hps⟩ := List.forall_mem_cons.1 hsep
    obtain ⟨ht, hts⟩ := List.forall_mem_cons.1 h
    cases pss with
    | nil => simpa using ht
    | cons qs pss =>
      rw [List.intercalate_cons_cons, endsLines_append, endsLines_append, text_code]
      exact ⟨⟨hp.append_right _, trivial⟩, ih hps hts⟩

/-- Pieces with the text that they print. -/
structure Compose (ps : Pieces) (t : Text) : Prop where
  text_eq : text ps = t
  endsLines : EndsLines ps []

abbrev ComposeAll : List Pieces → List Text → Prop := List.Forall₂ Compose

theorem ComposeAll.map_text (h : ComposeAll pss ts) : pss.map text = ts := by
  induction h with
  | nil => rfl
  | cons h _ ih => rw [List.map_cons, h.text_eq, ih]

theorem ComposeAll.endsLines (h : ComposeAll pss ts) (t : Text) : ∀ ps ∈ pss, EndsLines ps t := by
  induction h with
  | nil => nofun
  | cons h _ ih => exact List.forall_mem_cons.2 ⟨h.endsLines.append_right t, ih⟩

namespace Compose

/-! ## Layout -/

theorem code (t : Text) : Compose (code t) t := ⟨text_code t, trivial⟩

theorem append (h : Compose ps t) (k : Compose qs u) : Compose (ps ++ qs) (t ++ u) :=
  ⟨by rw [text_append, h.text_eq, k.text_eq],
    endsLines_append.2 ⟨h.endsLines.append_right _, k.endsLines⟩⟩

theorem ite {p : Prop} [Decidable p] (h : Compose ps t) (k : Compose qs u) :
    Compose (if p then ps else qs) (if p then t else u) := by
  split
  · exact h
  · exact k

theorem flatMap {α β : Type} {as : List α} {bs : List β} {f : α → Pieces} {g : β → Text}
    (h : List.Forall₂ (fun a b => Compose (f a) (g b)) as bs) :
    Compose (as.flatMap f) (bs.flatMap g) := by
  induction h with
  | nil => exact ⟨rfl, trivial⟩
  | cons h _ ih => exact append h ih

theorem inlineComments (comments : List Text) :
    Compose (inlineComments comments) (Print.inlineComments comments) := by
  induction comments with
  | nil => exact ⟨rfl, trivial⟩
  | cons c comments ih =>
    have hfirst : Compose [.inside c] (Print.inlineComment c) := ⟨List.append_nil _, trivial⟩
    exact append hfirst ih

theorem lineBreak (comment : Text) :
    Compose [.line comment, .code "\n"] (comment ++ Text.ofString "\n") :=
  ⟨by simp [Pieces.text, Piece.text], rfl, trivial⟩

theorem line (level : Nat) (comments : List Text) (h : Compose ps t) :
    Compose (line level comments ps) (Print.line level comments t) := by
  refine append (append (flatMap (List.forall₂_same.2 fun c _ => ?_)) (code _)) h
  rw [List.append_assoc]
  exact append (code _) (lineBreak c)

theorem join (sep : Text) (h : ComposeAll pss ts) : Compose (join sep pss) (Text.join sep ts) :=
  ⟨by rw [text_join, h.map_text], endsLines_join (h.endsLines sep) (h.endsLines [])⟩

/-- Only braces whose lines have no signs between them have comments behind the last line. -/
theorem braced (level : Nat) {trailing : List Text} {sep : Text} (h : ComposeAll pss ts)
    (hsep : trailing = [] ∨ sep = []) :
    Compose (braced level pss trailing sep) (Print.braced level ts trailing sep) := by
  have hempty : pss.isEmpty = ts.isEmpty := by cases h <;> rfl
  unfold Pieces.braced Print.braced
  rw [hempty]
  refine ite (code _) ?_
  generalize hcomments :
    (trailing.map fun c => [.code (Print.indentation (level + 1)), Piece.line c]) = comments
  have htext : comments.map text = trailing.map (Print.indentation (level + 1) ++ ·) := by
    simp [← hcomments, text, Piece.text]
  have hbreak (u : Text) : ∀ ps ∈ comments, EndsLines ps ("\n" ++ u) := by
    rw [← hcomments]
    intro ps hps
    obtain ⟨c, -, rfl⟩ := List.mem_map.1 hps
    exact ⟨rfl, trivial⟩
  have hbetween : ∀ ps ∈ comments, EndsLines ps (sep ++ "\n") := by
    rcases hsep with rfl | rfl
    · rw [← hcomments]
      nofun
    · exact hbreak []
  constructor
  · simp [text_join, htext, h.map_text]
  · simp only [endsLines_append, List.append_assoc, text_append, text_code]
    refine ⟨trivial, endsLines_join ?_ ?_, trivial, trivial, trivial⟩
    · exact List.forall_mem_append.2 ⟨h.endsLines _, hbetween⟩
    · exact List.forall_mem_append.2 ⟨h.endsLines _, hbreak _⟩

theorem parenthesized (h : Compose ps t) : Compose (parenthesized ps) (Print.parenthesized t) :=
  append (append (code _) h) (code _)

theorem commas (h : ComposeAll pss ts) : Compose (commas pss) (Print.commas ts) := join _ h

theorem behind (before : Text) (h : ComposeAll pss ts) :
    Compose (behind before pss) (Print.behind before ts) :=
  flatMap (h.imp fun _ _ h => append (code before) h)

theorem varDecl (kind : VarKind) (h : ComposeAll pss ts) :
    Compose (varDecl kind pss) (Print.varDecl kind ts) :=
  append (append (code _) (code _)) (commas h)

end Compose

end Pieces

/-! ## Parts of nodes -/

namespace Part

open Pieces (Compose ComposeAll)

variable {p : Part} {ps : List Part}

/-- The pieces of a part are what is printed for its node. -/
structure IsFaithful (p : Part) : Prop where
  pieces (level : Nat) : Compose (p.pieces level) (Print.text level p.node)
  /-- A declaration is a semicolon behind what a loop can start with. -/
  varDecl {head : Head} {kind : VarKind} {declarations : List Node} (level : Nat)
    (h : p.node = .varDecl head kind declarations) :
    Compose (p.pieces level).dropLast (Print.varDecl kind (Print.texts level declarations))

namespace IsFaithful

theorem placed (h : p.IsFaithful) (least level : Nat) :
    Compose (p.placed least level) (Print.placed least p.node (Print.text level p.node)) :=
  .append (.inlineComments _) (.ite (.parenthesized (h.pieces level)) (h.pieces level))

theorem operand (h : p.IsFaithful) (op : BinaryOp) (least level : Nat) :
    Compose (p.operand op least level)
      (Print.operand op least p.node (Print.text level p.node)) := by
  unfold Part.operand Print.operand
  cases p.node.form with
  | binary inner =>
    exact .ite (.append (.inlineComments _) (.parenthesized (h.pieces level)))
      (h.placed least level)
  | _ => exact h.placed least level

theorem unary (h : p.IsFaithful) (op : UnaryOp) (level : Nat) :
    Compose (p.unary op level)
      (Print.unary op (Print.placed Precedence.unary p.node (Print.text level p.node))) := by
  have hoperand := h.placed Precedence.unary level
  simp only [Part.unary, Print.unary, hoperand.text_eq]
  exact .append (.append (.code _) (.code _)) hoperand

theorem memberKey (h : p.IsFaithful) (computed : Bool) (level : Nat) :
    Compose (p.memberKey computed level)
      (Print.memberKey computed p.node (Print.text level p.node)) :=
  .ite (.append (.append (.code _) (h.placed _ level)) (.code _)) (h.placed 0 level)

theorem behindHead (h : p.IsFaithful) (level : Nat) :
    Compose (p.behindHead level) (Print.behindHead p.node (Print.text level p.node)) :=
  .append (.append (.code _) (.inlineComments _)) (h.pieces level)

theorem arrowBody (h : p.IsFaithful) (level : Nat) :
    Compose (p.arrowBody level)
      (match p.node.form with
        | .block .. => Print.text level p.node
        | .object =>
          Print.parenthesized (Print.placed Precedence.assign p.node (Print.text level p.node))
        | _ => Print.placed Precedence.assign p.node (Print.text level p.node)) := by
  unfold Part.arrowBody
  cases p.node.form with
  | block => exact h.pieces level
  | object => exact .parenthesized (h.placed _ level)
  | _ => exact h.placed _ level

theorem property {key value : Part} (hkey : key.IsFaithful) (hvalue : value.IsFaithful)
    (computed shorthand : Bool) (level : Nat) :
    Compose (Part.property computed shorthand level key value)
      (match shorthand && Print.isSameName key.node value.node, key.node.ident? with
        | true, some ident => ident
        | _, _ =>
          Print.memberKey computed key.node (Print.text level key.node) ++ ": " ++
            Print.placed Precedence.assign value.node (Print.text level value.node)) := by
  have hpair := Compose.append (.append (hkey.memberKey computed level) (.code ": "))
    (hvalue.placed Precedence.assign level)
  unfold Part.property
  cases shorthand && Print.isSameName key.node value.node with
  | false => exact hpair
  | true =>
    cases key.node.ident? with
    | none => exact hpair
    | some ident => exact .code ident

end IsFaithful

/-! ## Lists of parts -/

abbrev AreFaithful (ps : List Part) : Prop := ps.Forall IsFaithful

namespace AreFaithful

theorem map (h : AreFaithful ps) {f : Part → Pieces} {g : Node → Text}
    (hf : ∀ p, p.IsFaithful → Compose (f p) (g p.node)) :
    ComposeAll (ps.map f) ((ps.map node).map g) := by
  rw [List.map_map]
  exact List.forall₂_map_left_iff.2 (List.forall₂_map_right_iff.2
    (List.forall₂_same.2 fun p hp => hf p (List.forall_iff_forall_mem.1 h p hp)))

theorem pieces (h : AreFaithful ps) (level : Nat) :
    ComposeAll (ps.map (Part.pieces · level)) (Print.texts level (ps.map node)) := by
  rw [Print.texts_eq_map]
  exact h.map fun p hp => hp.pieces level

theorem parenthesized (h : AreFaithful ps) (level : Nat) :
    ComposeAll (ps.map fun p => Pieces.parenthesized (p.pieces level))
      ((Print.texts level (ps.map node)).map Print.parenthesized) := by
  rw [Print.texts_eq_map, List.map_map]
  exact h.map fun p hp => .parenthesized (hp.pieces level)

theorem placed (h : AreFaithful ps) (least level : Nat) :
    ComposeAll (ps.map (Part.placed least level))
      (Print.placedAll least (ps.map node) (Print.texts level (ps.map node))) := by
  rw [Print.placedAll, Print.zipWith_texts]
  exact h.map fun p hp => hp.placed least level

theorem behindHead (h : AreFaithful ps) (level : Nat) :
    ComposeAll (ps.map (Part.behindHead level))
      (List.zipWith Print.behindHead (ps.map node) (Print.texts level (ps.map node))) := by
  rw [Print.zipWith_texts]
  exact h.map fun p hp => hp.behindHead level

theorem lines (h : AreFaithful ps) (level : Nat) :
    ComposeAll (Part.lines level ps) (Print.lines level (ps.map node)) := by
  rw [Print.lines_eq_map]
  exact h.map fun p hp => .line level _ (hp.pieces level)

theorem method {key body : Part} {params : List Part} (hkey : key.IsFaithful)
    (h : AreFaithful params) (hbody : body.IsFaithful) (role : MethodRole) (isAsync computed : Bool)
    (level : Nat) :
    Compose (Part.method role isAsync computed level key params body)
      (Print.method role isAsync (Print.memberKey computed key.node (Print.text level key.node))
        (Print.texts level (params.map node)) (Print.text level body.node)) :=
  .append (.append (.append (.append (.append (.code _) (.code _)) (hkey.memberKey _ level))
    (.parenthesized (.commas (h.pieces level)))) (.code _)) (hbody.pieces level)

theorem loopStart (h : AreFaithful ps) (level : Nat) :
    Compose (Part.loopStart level ps) (Print.loopStart level (ps.map node)) := by
  unfold Part.loopStart Print.loopStart
  split
  · exact IsFaithful.varDecl h level rfl
  · next p hp =>
    have hnode : ∀ head kind declarations, p.node = .varDecl head kind declarations → False := by
      rintro head kind declarations hnode
      obtain ⟨node, pieces⟩ := p
      obtain rfl : node = .varDecl head kind declarations := hnode
      exact hp _ _ _ _ rfl
    split
    · next heq => exact (hnode _ _ _ (List.singleton_inj.1 heq)).elim
    · next e _ heq =>
      obtain rfl : p.node = e := List.singleton_inj.1 heq
      exact IsFaithful.placed h _ _
    · next hne => exact (hne _ rfl).elim
  · next hne =>
    split
    · next heq =>
      obtain ⟨p, rfl, -⟩ := List.map_eq_singleton_iff.1 heq
      exact (hne _ rfl).elim
    · next heq =>
      obtain ⟨p, rfl, -⟩ := List.map_eq_singleton_iff.1 heq
      exact (hne _ rfl).elim
    · exact ⟨rfl, trivial⟩

end AreFaithful

end Part

/-! ## Nodes -/

namespace Pieces

open InlineTemplates.Part

theorem compose_ofForm {parts : List (List Part)} (h : parts.Forall AreFaithful) (level : Nat)
    (head : Head) (form : Form) :
    Compose (ofForm level head form parts)
      (Print.text level (.mk head form (parts.map (·.map node)))) := by
  unfold ofForm
  -- one case for each form, in the order of the definition; the last one is all code
  split
  · obtain ⟨htag, -⟩ := h
    exact .append (IsFaithful.placed htag _ _) (.code _)
  · exact .append (.code _) (IsFaithful.placed h _ _)
  · obtain ⟨hfunc, hargs⟩ := h
    exact .append (.append (IsFaithful.placed hfunc _ _) (.code _))
      (.parenthesized (.commas (AreFaithful.placed hargs _ _)))
  · obtain ⟨hfunc, hargs⟩ := h
    exact .append (.append (.code _) (IsFaithful.placed hfunc _ _))
      (.parenthesized (.commas (AreFaithful.placed hargs _ _)))
  · exact .append (.append (IsFaithful.placed h _ _) (.code _)) (.code _)
  · obtain ⟨hvalue, hindex⟩ := h
    exact .append (.append (.append (.append (IsFaithful.placed hvalue _ _) (.code _)) (.code _))
      (IsFaithful.placed hindex _ _)) (.code _)
  · exact .append (.append (.code _) (.commas (AreFaithful.placed h _ _))) (.code _)
  · exact .braced level (AreFaithful.lines h _) (.inl rfl)
  · obtain ⟨hparams, hbody⟩ := h
    exact .append (.append (.append (.code _) (.parenthesized (.commas (hparams.pieces _))))
      (.code _)) (IsFaithful.arrowBody hbody _)
  · obtain ⟨hname, hparams, hbody⟩ := h
    exact .append (.append (.append (.append (.append (.code _) (.code _))
      (.behind _ (hname.pieces _))) (.parenthesized (.commas (hparams.pieces _)))) (.code _))
      (IsFaithful.pieces hbody _)
  · obtain ⟨hname, hsuperclass, hbody⟩ := h
    exact .append (.append (.append (.append (.code _) (.behind _ (hname.pieces _)))
      (.behind _ (hsuperclass.placed _ _))) (.code _)) (IsFaithful.pieces hbody _)
  · obtain ⟨hname, hsuperclass, hbody⟩ := h
    exact .append (.append (.append (.append (.code _) (.behind _ (hname.pieces _)))
      (.behind _ (hsuperclass.placed _ _))) (.code _)) (IsFaithful.pieces hbody _)
  · exact IsFaithful.unary h _ _
  · exact .ite (.append (.code _) (IsFaithful.placed h _ _))
      (.append (IsFaithful.placed h _ _) (.code _))
  · obtain ⟨hleft, hright⟩ := h
    exact .append (.append (.append (.append (IsFaithful.operand hleft _ _ _) (.code _)) (.code _))
      (.code _)) (IsFaithful.operand hright _ _ _)
  · obtain ⟨hcondition, hthen, helse⟩ := h
    exact .append (.append (.append (.append (IsFaithful.placed hcondition _ _) (.code _))
      (IsFaithful.placed hthen _ _)) (.code _)) (IsFaithful.placed helse _ _)
  · obtain ⟨htarget, hvalue⟩ := h
    exact .append (.append (.append (.append (IsFaithful.placed htarget _ _) (.code _)) (.code _))
      (.code _)) (IsFaithful.placed hvalue _ _)
  · obtain ⟨hkey, hvalue⟩ := h
    exact IsFaithful.property hkey hvalue _ _ _
  · obtain ⟨hkey, hparams, hbody⟩ := h
    exact AreFaithful.method hkey hparams hbody _ _ _ _
  · obtain ⟨hname, hinitial⟩ := h
    exact .ite (.append (.code _) (IsFaithful.pieces hname _))
      (.append (IsFaithful.pieces hname _) (.behind _ (hinitial.placed _ _)))
  · exact .braced level (AreFaithful.lines h _) (.inr rfl)
  · exact .append (.ite (.parenthesized (IsFaithful.placed h _ _)) (IsFaithful.placed h _ _))
      (.code _)
  · exact .append (.append (.code _) (.behind _ (AreFaithful.placed h _ _))) (.code _)
  · exact .append (.append (.code _) (IsFaithful.placed h _ _)) (.code _)
  · obtain ⟨hcondition, hthen, helse⟩ := h
    exact .append (.append (.append (.code _) (.parenthesized (IsFaithful.placed hcondition _ _)))
      (IsFaithful.behindHead hthen _)) (.behind _ (AreFaithful.behindHead helse _))
  · exact .append (.varDecl _ (AreFaithful.pieces h _)) (.code _)
  · obtain ⟨hinitial, htest, hupdate, hbody⟩ := h
    simp only [List.map_cons, List.map_nil]
    rw [Print.text_forStmt]
    exact .append (.append (.code _) (.parenthesized (.append (.append (.append (.append
      (AreFaithful.loopStart hinitial _) (.code _)) (.behind _ (htest.placed _ _))) (.code _))
      (.behind _ (hupdate.placed _ _))))) (IsFaithful.behindHead hbody _)
  · obtain ⟨hname, hiterable, hbody⟩ := h
    exact .append (.append (.code _) (.parenthesized (.append (.append (.append (.append (.append
      (.append (.code _) (.code _)) (IsFaithful.pieces hname _)) (.code _)) (.code _)) (.code _))
      (IsFaithful.placed hiterable _ _)))) (IsFaithful.behindHead hbody _)
  · obtain ⟨hcondition, hbody⟩ := h
    exact .append (.append (.code _) (.parenthesized (IsFaithful.placed hcondition _ _)))
      (IsFaithful.behindHead hbody _)
  · obtain ⟨hbody, hcondition⟩ := h
    exact .append (.append (.append (.append (.code _) (IsFaithful.behindHead hbody _)) (.code _))
      (.parenthesized (IsFaithful.placed hcondition _ _))) (.code _)
  · obtain ⟨hblock, hhandler, hfinalizer⟩ := h
    exact .append (.append (.append (.code _) (IsFaithful.pieces hblock _))
      (.behind _ (hhandler.pieces _))) (.behind _ (AreFaithful.pieces hfinalizer _))
  · obtain ⟨hname, hparams, hbody⟩ := h
    exact .append (.append (.append (.append (.append (.code _) (.code _))
      (IsFaithful.pieces hname _)) (.parenthesized (.commas (hparams.pieces _)))) (.code _))
      (IsFaithful.pieces hbody _)
  · obtain ⟨hdeclaration, -⟩ := h
    have hfirst := (List.forall_cons ..).1 hdeclaration
    exact .append (.code _) (hfirst.1.pieces _)
  · exact .append (.append (.code _) (IsFaithful.placed h _ _)) (.code _)
  · obtain ⟨hname, hinitial⟩ := h
    exact .append (IsFaithful.pieces hname _) (.behind _ (AreFaithful.placed hinitial _ _))
  · obtain ⟨hparam, hbody⟩ := h
    exact .append (.append (.append (.code _) (.behind _ (hparam.parenthesized _))) (.code _))
      (IsFaithful.pieces hbody _)
  · exact .braced level (AreFaithful.lines h _) (.inr rfl)
  · obtain ⟨hkey, hparams, hbody⟩ := h
    exact .append (.code _) (AreFaithful.method hkey hparams hbody _ _ _ _)
  · obtain ⟨hkey, hvalue⟩ := h
    exact .append (.append (.append (.code _) (IsFaithful.memberKey hkey _ _))
      (.behind _ (AreFaithful.placed hvalue _ _))) (.code _)
  · refine .flatMap (List.rel_append ?_ ?_)
    · exact (AreFaithful.lines h 0).imp fun _ _ h => .append h (.code _)
    · exact List.forall₂_map_left_iff.2 (List.forall₂_same.2 fun c _ => .lineBreak c)
  · exact .code _

theorem map_node_partsOf (ns : List Node) : (partsOf ns).map node = ns := by
  induction ns with
  | nil => rfl
  | cons n ns ih =>
    cases n
    exact congrArg (_ :: ·) ih

theorem map_node_partsOfSlots (slots : List (List Node)) :
    (partsOfSlots slots).map (·.map node) = slots := by
  induction slots with
  | nil => rfl
  | cons ns slots ih =>
    rw [partsOfSlots, List.map_cons, map_node_partsOf, ih]

mutual

theorem isFaithful_partOf : ∀ n, (partOf n).IsFaithful
  | .mk head form slots => by
    have hparts := areFaithful_partsOfSlots slots
    refine ⟨fun level => ?_, fun {head' kind declarations} level h => ?_⟩
    · have hform := compose_ofForm hparts level head form
      rwa [map_node_partsOfSlots] at hform
    · cases h
      have hdeclarations : AreFaithful (partsOf declarations) := hparts
      have hpieces := hdeclarations.pieces level
      rw [map_node_partsOf] at hpieces
      have hsemicolon : ((partOf (.varDecl head kind declarations)).pieces level).dropLast =
          varDecl kind ((partsOf declarations).map (Part.pieces · level)) :=
        List.dropLast_concat
      rw [hsemicolon]
      exact .varDecl kind hpieces

theorem areFaithful_partsOfSlots : ∀ slots, (partsOfSlots slots).Forall AreFaithful
  | [] => trivial
  | ns :: slots => (List.forall_cons ..).2 ⟨areFaithful_partsOf ns, areFaithful_partsOfSlots slots⟩

theorem areFaithful_partsOf : ∀ ns, AreFaithful (partsOf ns)
  | [] => trivial
  | n :: ns => (List.forall_cons ..).2 ⟨isFaithful_partOf n, areFaithful_partsOf ns⟩

end

theorem compose_ofProgram (n : Node) : Compose (ofProgram n) n.programText := by
  have h := (isFaithful_partOf n).pieces 0
  cases n
  exact h

theorem compose_ofStatement (n : Node) (level : Nat) :
    Compose (ofStatement n level) (Print.line level n.comments (Print.text level n)) := by
  have h := (isFaithful_partOf n).pieces level
  cases n
  exact .line level _ h

theorem compose_ofExpression (n : Node) (level least : Nat) :
    Compose (ofExpression n level least) (n.expressionText level least) := by
  have h := (isFaithful_partOf n).placed least level
  cases n
  exact h

/-! ## Ends of comments -/

/-- A comment of a source, or the one in front of a compiled template. -/
def IsShown (comment : Text) : Prop :=
  (∃ source s, Scan.scan source = .ok s ∧ ∃ c ∈ s.comments, c.text = comment) ∨
    ∃ template, comment = Compiler.templateComment template

theorem IsShown.isComment {comment : Text} (h : IsShown comment) : comment.IsComment := by
  rcases h with ⟨source, s, hs, c, hc, rfl⟩ | ⟨template, rfl⟩
  · exact Scan.scan_isComment hs c hc
  · exact .inl (Compiler.isBlockComment_templateComment template)

/-- Each comment that is printed is a lexeme that ends where the comment ends, whatever is printed
behind it. -/
theorem Compose.next?_comment (h : Compose ps t) {p : Piece} {comment : Text}
    (before after : Pieces) (hsplit : ps = before ++ p :: after) (hp : p.comment? = some comment)
    (hcomment : IsShown comment) :
    Lexeme.next? (p.text ++ text after) = some (.comment, p.text.length) := by
  have hends := h.endsLines
  rw [hsplit, endsLines_append] at hends
  cases p with
  | code => cases hp
  | line c =>
    obtain rfl := Option.some.inj hp
    rcases hcomment.isComment with hblock | hline
    · exact Lexeme.next?_blockComment hblock _
    · have hbreak := hends.2.1
      rw [List.append_nil] at hbreak
      exact Lexeme.next?_lineComment hline hbreak
  | inside c =>
    obtain rfl := Option.some.inj hp
    exact Lexeme.next?_blockComment hcomment.isComment.inlineComment _

end Pieces

end InlineTemplates
