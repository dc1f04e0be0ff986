import StackC.Proofs.Compile.Dump
import StackC.Proofs.SExpr.Match

/-! The text of a tree is read back as its s-expression, which as a pattern matches no other
tree. -/
namespace StackC

open SExpr (Node Rigid)

theorem rigid_string (t : Bytes) : Rigid (.string t) := .atom (by simp [Node.string]) rfl rfl rfl

theorem rigid_integer (t : Bytes) : Rigid (.integer t) := .atom (by simp [Node.integer]) rfl rfl rfl

/-- No symbol of a tree is the wildcard. -/
theorem rigid_symbol {t : Bytes} (h : t ≠ ascii "_") : Rigid (.symbol t) := by
  refine .atom (by simp [Node.symbol]) rfl ?_ rfl
  simp [Node.isWildcard, Node.symbol, h]

theorem rigid_entry {head : String} {items : List Node} (hh : ascii head ≠ ascii "_")
    (h : ∀ n ∈ items, Rigid n) : Rigid (entry head items) :=
  .list (List.forall_mem_cons.mpr ⟨rigid_symbol hh, h⟩)

theorem Ty.rigid_datum (type : Ty) : Rigid type.datum := by
  induction type with
  | int => exact rigid_symbol (by decide)
  | ptr base ih => exact rigid_entry (by decide) (List.forall_mem_singleton.mpr ih)

mutual

theorem Expr.rigid_datum (names : List Bytes) (x : Expr) : Rigid (x.datum names) := by
  cases x with
  | absent => exact rigid_symbol (by decide)
  | num pos n => exact rigid_entry (by decide) (List.forall_mem_singleton.mpr (rigid_integer _))
  | var pos i => exact rigid_entry (by decide) (List.forall_mem_singleton.mpr (rigid_string _))
  | neg pos x | addr pos x | deref pos x =>
    exact rigid_entry (by decide) (List.forall_mem_singleton.mpr (x.rigid_datum names))
  | binary pos op l r =>
    refine rigid_entry (by decide) (List.forall_mem_cons.mpr ⟨rigid_string _, ?_⟩)
    exact List.forall_mem_cons.mpr
      ⟨l.rigid_datum names, List.forall_mem_singleton.mpr (r.rigid_datum names)⟩
  | assign pos l r =>
    exact rigid_entry (by decide) (List.forall_mem_cons.mpr
      ⟨l.rigid_datum names, List.forall_mem_singleton.mpr (r.rigid_datum names)⟩)
  | call pos name args =>
    exact rigid_entry (by decide)
      (List.forall_mem_cons.mpr ⟨rigid_string _, Expr.rigid_data names args⟩)

theorem Expr.rigid_data (names : List Bytes) (xs : List Expr) :
    ∀ n ∈ Expr.data names xs, Rigid n := by
  cases xs with
  | nil => exact List.forall_mem_nil _
  | cons x xs => exact List.forall_mem_cons.mpr ⟨x.rigid_datum names, Expr.rigid_data names xs⟩

end

mutual

theorem Stmt.rigid_datum (names : List Bytes) (x : Stmt) : Rigid (x.datum names) := by
  cases x with
  | absent => exact rigid_symbol (by decide)
  | block pos body => exact rigid_entry (by decide) (Stmt.rigid_data names body)
  | cond pos test yes no =>
    refine rigid_entry (by decide) (List.forall_mem_cons.mpr ⟨test.rigid_datum names, ?_⟩)
    refine List.forall_mem_cons.mpr ⟨yes.rigid_datum names, ?_⟩
    split
    · exact List.forall_mem_nil _
    · exact List.forall_mem_singleton.mpr (no.rigid_datum names)
  | loop pos first test step body =>
    refine rigid_entry (by decide) (List.forall_mem_cons.mpr ⟨first.rigid_datum names, ?_⟩)
    refine List.forall_mem_cons.mpr ⟨test.rigid_datum names, ?_⟩
    exact List.forall_mem_cons.mpr
      ⟨step.rigid_datum names, List.forall_mem_singleton.mpr (body.rigid_datum names)⟩
  | ret pos x | expr pos x =>
    exact rigid_entry (by decide) (List.forall_mem_singleton.mpr (x.rigid_datum names))

theorem Stmt.rigid_data (names : List Bytes) (xs : List Stmt) :
    ∀ n ∈ Stmt.data names xs, Rigid n := by
  cases xs with
  | nil => exact List.forall_mem_nil _
  | cons x xs => exact List.forall_mem_cons.mpr ⟨x.rigid_datum names, Stmt.rigid_data names xs⟩

end

theorem Function.rigid_data (f : Function) (stmts : List Stmt) :
    ∀ n ∈ f.data stmts, Rigid n := by
  have hlocals : ∀ n ∈ f.locals.map Local.datum, Rigid n :=
    List.forall_mem_map.mpr fun v _ => rigid_entry (by decide)
      (List.forall_mem_cons.mpr ⟨rigid_string _, List.forall_mem_singleton.mpr v.type.rigid_datum⟩)
  exact List.forall_mem_cons.mpr ⟨rigid_entry (by decide) hlocals,
    List.forall_mem_singleton.mpr (rigid_entry (by decide) (Stmt.rigid_data _ stmts))⟩

theorem Function.rigid_datum (f : Function) : Rigid f.datum := by
  refine rigid_entry (by decide) (List.forall_mem_cons.mpr ⟨rigid_string _, ?_⟩)
  exact List.forall_mem_cons.mpr ⟨f.returnType.rigid_datum, f.rigid_data f.stmts⟩

theorem Program.rigid_datum (p : Program) : Rigid p.datum := by
  unfold Program.datum
  split
  · exact rigid_entry (by decide) (Function.rigid_data _ _)
  · exact rigid_entry (by decide) (List.forall_mem_map.mpr fun f _ => f.rigid_datum)

/-- What is shown of a tree is the line of its s-expression. -/
theorem compile_ast_eq_print {src d : Bytes} (h : (compile .ast src).result = .ok d) :
    ∃ p : Program, SExpr.read d = .ok p.datum ∧ p.datum.print ++ [Text.newline] = d := by
  obtain ⟨toks, p, hsrc, hp, hread⟩ := compile_ast_eq_ok h
  obtain ⟨t, ht, hast, -⟩ := compile_of_parse hsrc hp
  have hd := p.dump?_eq_print (Grammar.proper_of_parse hsrc hp) (Grammar.named_of_parse hsrc hp)
  rw [hd, Option.some.injEq] at ht
  rw [h, Except.ok.injEq] at hast
  exact ⟨p, hread, by rw [ht, hast]⟩

/-- The texts of two trees are read back as data with those texts, and the one matches the other as
a pattern if and only if the texts are the same. -/
theorem reread_dumps {src₁ src₂ d₁ d₂ : Bytes} (h₁ : (compile .ast src₁).result = .ok d₁)
    (h₂ : (compile .ast src₂).result = .ok d₂) :
    ∃ n₁ n₂, SExpr.read d₁ = .ok n₁ ∧ SExpr.read d₂ = .ok n₂ ∧
      n₁.print ++ [Text.newline] = d₁ ∧ n₂.print ++ [Text.newline] = d₂ ∧
      (n₁.mismatch? n₂ = none ↔ d₁ = d₂) := by
  obtain ⟨p₁, hr₁, hp₁⟩ := compile_ast_eq_print h₁
  obtain ⟨p₂, hr₂, hp₂⟩ := compile_ast_eq_print h₂
  refine ⟨p₁.datum, p₂.datum, hr₁, hr₂, hp₁, hp₂, ?_⟩
  rw [SExpr.mismatch?_eq_none p₁.rigid_datum p₂.rigid_datum.formed]
  constructor
  · intro hn
    rw [← hp₁, hn, hp₂]
  · intro hd
    rw [hd, hr₂, Except.ok.injEq] at hr₁
    exact hr₁.symm

/-- A block that gives a variable, and its tokens, tree and text. -/
def givesSource (name : Bytes) : Bytes := ascii "\x7breturn " ++ name ++ ascii ";\x7d"

def givesTokens (name : Bytes) : List Token :=
  [⟨.punct, 0, ascii "\x7b", 0⟩, ⟨.keyword, 1, ascii "return", 0⟩, ⟨.ident, 8, name, 0⟩,
    ⟨.punct, 9, ascii ";", 0⟩, ⟨.punct, 10, ascii "\x7d", 0⟩, .eof 11]

def givesTree (name : Bytes) : Program where
  topLevel := true
  funcs := [{ name := [], pos := 0, locals := [⟨name, .int, 8⟩], body := some {
    pos := 0, stmts := [.ret 1 (.var 8 0)] } }]
  req := {}

def givesText (name : Bytes) : Bytes :=
  ascii "(program (locals (local \"" ++ name ++ ascii "\" int)) (block (return (var \"" ++ name ++
    ascii "\"))))\n"

/-- A variable with the name of the wildcard stands for itself. -/
theorem reread_dumps_wildcard :
    (compile .ast (givesSource (ascii "_"))).result = .ok (givesText (ascii "_")) ∧
      (compile .ast (givesSource (ascii "x"))).result = .ok (givesText (ascii "x")) ∧
      ∃ n₁ n₂, SExpr.read (givesText (ascii "_")) = .ok n₁ ∧
        SExpr.read (givesText (ascii "x")) = .ok n₂ ∧ n₁.mismatch? n₂ ≠ none := by
  have hsrc₁ : Token.scan (givesSource (ascii "_")) = .ok (givesTokens (ascii "_")) := by
    decide +kernel
  have hp₁ : Grammar.parse (givesTokens (ascii "_")) {} = .ok (givesTree (ascii "_")) :=
    Grammar.parse_of_walk rfl
  have hd₁ : (givesTree (ascii "_")).dump?.map (· ++ [Text.newline]) =
      some (givesText (ascii "_")) := by decide +kernel
  have hsrc₂ : Token.scan (givesSource (ascii "x")) = .ok (givesTokens (ascii "x")) := by
    decide +kernel
  have hp₂ : Grammar.parse (givesTokens (ascii "x")) {} = .ok (givesTree (ascii "x")) :=
    Grammar.parse_of_walk rfl
  have hd₂ : (givesTree (ascii "x")).dump?.map (· ++ [Text.newline]) =
      some (givesText (ascii "x")) := by decide +kernel
  have shown {name : Bytes} (hsrc : Token.scan (givesSource name) = .ok (givesTokens name))
      (hp : Grammar.parse (givesTokens name) {} = .ok (givesTree name))
      (hd : (givesTree name).dump?.map (· ++ [Text.newline]) = some (givesText name)) :
      (compile .ast (givesSource name)).result = .ok (givesText name) := by
    obtain ⟨d, ht, hast, -⟩ := compile_of_parse hsrc hp
    rw [ht, Option.map_some, Option.some.injEq] at hd
    rw [hast, hd]
  have h₁ := shown hsrc₁ hp₁ hd₁
  have h₂ := shown hsrc₂ hp₂ hd₂
  obtain ⟨n₁, n₂, hr₁, hr₂, -, -, hm⟩ := reread_dumps h₁ h₂
  exact ⟨h₁, h₂, n₁, n₂, hr₁, hr₂, fun hn => absurd (hm.mp hn) (by decide)⟩

end StackC
