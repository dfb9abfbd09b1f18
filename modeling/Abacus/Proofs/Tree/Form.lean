import Abacus.Proofs.Tree.Outline
import Abacus.Tree.Form

/-!
# Abacus.Proofs.Tree.Form

The outlines of trees.  Every compound node is a group that begins with its operator or
keyword, every block is one in braces, and what is left are words and quoted texts.  The
prefix form of a tree is the text of its outline (`Stmt.toList_form`).
-/

namespace Abacus

/-! ## Outlines of trees -/

namespace Outline

/-- A word of an outline. -/
def atom (s : String) : Outline := .word s.toList

/-- A group in parentheses that begins with a word. -/
def node (head : String) (items : List Outline) : Outline := .group .round (atom head :: items)

@[simp] theorem text_atom (s : String) : (atom s).text = s.toList := by rw [atom, text]

@[simp] theorem text_node (head : String) (items : List Outline) :
    (node head items).text = '(' :: (head.toList ++ (continued items ++ [')'])) := by
  rw [node, text, spaced, text_atom, List.append_assoc]
  rfl

@[simp] theorem atom_inj {s s' : String} : atom s = atom s' ↔ s = s' := by
  rw [atom, atom, word.injEq, String.toList_inj]

@[simp] theorem node_inj {head head' : String} {items items' : List Outline} :
    node head items = node head' items' ↔ head = head' ∧ items = items' := by
  simp [node]

@[simp] theorem atom_ne_node (s head : String) (items : List Outline) : atom s ≠ node head items :=
  nofun

@[simp] theorem node_ne_atom (s head : String) (items : List Outline) : node head items ≠ atom s :=
  nofun

@[simp] theorem atom_ne_quoted (s : String) (cs : List Char) : atom s ≠ quoted cs := nofun

@[simp] theorem quoted_ne_atom (cs : List Char) (s : String) : quoted cs ≠ atom s := nofun

@[simp] theorem quoted_ne_node (cs : List Char) (head : String) (items : List Outline) :
    quoted cs ≠ node head items := nofun

@[simp] theorem node_ne_quoted (cs : List Char) (head : String) (items : List Outline) :
    node head items ≠ quoted cs := nofun

end Outline

open Outline (atom node)

mutual
/-- The outline of an expression. -/
def Expr.outline : Expr → Outline
  | .number n => atom (Number.display n)
  | .string s => .quoted s.toList
  | .boolean b => atom (if b then "true" else "false")
  | .variable name _ => atom name
  | .binary op left right _ => node op.symbol [left.outline, right.outline]
  | .unary op operand _ => node op.symbol [operand.outline]
  | .call name args _ => node "call" (atom name :: Expr.outlines args)
  | .aggregate kind var start stop body _ =>
    node kind.symbol [atom var, start.outline, stop.outline, body.outline]

/-- The outlines of expressions. -/
def Expr.outlines : List Expr → List Outline
  | [] => []
  | e :: es => e.outline :: Expr.outlines es
end

mutual
/-- The outline of a statement. -/
def Stmt.outline : Stmt → Outline
  | .expression e => e.outline
  | .assign name value _ => node "=" [atom name, value.outline]
  | .ifThen condition body _ =>
    node "if" [condition.outline, .group .curly (Stmt.outlines body)]
  | .ifElse condition body other _ =>
    node "if" [condition.outline, .group .curly (Stmt.outlines body),
      .group .curly (Stmt.outlines other)]
  | .whileLoop condition body _ =>
    node "while" [condition.outline, .group .curly (Stmt.outlines body)]
  | .forLoop var items body _ =>
    node "for" [atom var, items.outline, .group .curly (Stmt.outlines body)]
  | .function name params body _ =>
    node "function" [atom name, .group .round (params.map atom),
      .group .curly (Stmt.outlines body)]
  | .giveBack (some value) _ => node "return" [value.outline]
  | .giveBack none _ => node "return" []

/-- The outlines of statements. -/
def Stmt.outlines : List Stmt → List Outline
  | [] => []
  | s :: rest => s.outline :: Stmt.outlines rest
end

/-- The outlines of a list are those of its members. -/
theorem Expr.outlines_eq_map (es : List Expr) : Expr.outlines es = es.map Expr.outline := by
  induction es with
  | nil => rfl
  | cons e es ih => rw [outlines, ih, List.map_cons]

/-- The outlines of a block are those of its statements. -/
theorem Stmt.outlines_eq_map (stmts : List Stmt) :
    Stmt.outlines stmts = stmts.map Stmt.outline := by
  induction stmts with
  | nil => rfl
  | cons s rest ih => rw [outlines, ih, List.map_cons]

/-! ## Forms are texts of outlines -/

/-- Texts joined by spaces are the items of a group. -/
theorem toList_joined {texts : List String} {os : List Outline}
    (h : texts.map String.toList = os.map Outline.text) :
    (joined texts).toList = Outline.spaced os := by
  rw [joined, String.toList_intercalate, h]
  clear h
  induction os with
  | nil => rfl
  | cons o os ih =>
      cases os with
      | nil => simp [Outline.spaced, Outline.continued]
      | cons o' os =>
          rw [List.map_cons, List.map_cons, List.intercalate_cons_cons, ← List.map_cons, ih]
          simp [Outline.spaced, Outline.continued]

/-- A braced block is the text of its outline if its statements are. -/
theorem toList_braced {forms : List String} {os : List Outline}
    (h : forms.map String.toList = os.map Outline.text) :
    (braced forms).toList = (Outline.group .curly os).text := by
  simp [braced, toList_joined h, Outline.text, Bracket.opening, Bracket.closing]

mutual
/-- The form of an expression is the text of its outline. -/
theorem Expr.toList_form (e : Expr) : e.form.toList = e.outline.text := by
  cases e with
  | number n => exact (Outline.text_atom _).symm
  | string s => exact Text.toList_quoted s
  | boolean b => exact (Outline.text_atom _).symm
  | «variable» name pos => exact (Outline.text_atom _).symm
  | binary op left right pos =>
      simp [form, outline, Outline.continued, Expr.toList_form left, Expr.toList_form right]
  | unary op operand pos =>
      simp [form, outline, Outline.continued, Expr.toList_form operand]
  | call name args pos =>
      have hargs : (name :: Expr.forms args).map String.toList =
          (atom name :: Expr.outlines args).map Outline.text := by
        rw [List.map_cons, List.map_cons, Expr.map_toList_forms args, Outline.text_atom]
      simp [form, outline, toList_joined hargs, Outline.spaced, Outline.continued]
  | aggregate kind var start stop body pos =>
      simp [form, outline, Outline.continued, Expr.toList_form start, Expr.toList_form stop,
        Expr.toList_form body]

/-- The forms of expressions are the texts of their outlines, one by one. -/
theorem Expr.map_toList_forms (es : List Expr) :
    (Expr.forms es).map String.toList = (Expr.outlines es).map Outline.text := by
  cases es with
  | nil => rfl
  | cons e es =>
      rw [forms, outlines, List.map_cons, List.map_cons, Expr.toList_form e,
        Expr.map_toList_forms es]
end

mutual
/-- The form of a statement is the text of its outline. -/
theorem Stmt.toList_form (s : Stmt) : s.form.toList = s.outline.text := by
  cases s with
  | expression e => exact e.toList_form
  | assign name value pos =>
      simp [form, outline, Outline.continued, Expr.toList_form]
  | ifThen condition body pos =>
      simp [form, outline, Outline.continued, Expr.toList_form,
        toList_braced (Stmt.map_toList_forms body)]
  | ifElse condition body other pos =>
      simp [form, outline, Outline.continued, Expr.toList_form,
        toList_braced (Stmt.map_toList_forms body), toList_braced (Stmt.map_toList_forms other)]
  | whileLoop condition body pos =>
      simp [form, outline, Outline.continued, Expr.toList_form,
        toList_braced (Stmt.map_toList_forms body)]
  | forLoop var items body pos =>
      simp [form, outline, Outline.continued, Expr.toList_form,
        toList_braced (Stmt.map_toList_forms body)]
  | function name params body pos =>
      have hparams : params.map String.toList = (params.map atom).map Outline.text := by
        rw [List.map_map]
        exact List.map_congr_left fun p _ => (Outline.text_atom p).symm
      simp [form, outline, Outline.continued, toList_joined hparams,
        toList_braced (Stmt.map_toList_forms body), Outline.text, Bracket.opening, Bracket.closing]
  | giveBack value pos =>
      cases value <;> simp [form, outline, Outline.continued, Expr.toList_form]

/-- The forms of statements are the texts of their outlines, one by one. -/
theorem Stmt.map_toList_forms (stmts : List Stmt) :
    (Stmt.forms stmts).map String.toList = (Stmt.outlines stmts).map Outline.text := by
  cases stmts with
  | nil => rfl
  | cons s rest =>
      rw [forms, outlines, List.map_cons, List.map_cons, Stmt.toList_form s,
        Stmt.map_toList_forms rest]
end

end Abacus
