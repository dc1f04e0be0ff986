import StackC.Proofs.Recast.Tree
import StackC.Proofs.SExpr.RoundTrip
import StackC.Proofs.Tree.Names

/-! The s-expression of a tree. Its text is the one shown, and it determines the tree up to
offsets. -/
namespace StackC

open SExpr (Node Readable)

def entry (head : String) (items : List Node) : Node := .list (.symbol (ascii head) :: items)

def Ty.datum : Ty → Node
  | .int => .symbol (ascii "int")
  | .ptr base => entry "ptr" [base.datum]

mutual

def Expr.datum (names : List Bytes) : Expr → Node
  | .absent => .symbol (ascii "nil")
  | .num _ n => entry "integer" [.integer (Text.decimal n)]
  | .var _ i => entry "var" [.string (names[i.toNat]?.getD [])]
  | .neg _ x => entry "neg" [x.datum names]
  | .addr _ x => entry "addr" [x.datum names]
  | .deref _ x => entry "deref" [x.datum names]
  | .binary _ op l r => entry "binary" [.string op.text, l.datum names, r.datum names]
  | .assign _ l r => entry "assign" [l.datum names, r.datum names]
  | .call _ name args => entry "call" (.string name :: Expr.data names args)

def Expr.data (names : List Bytes) : List Expr → List Node
  | [] => []
  | x :: xs => x.datum names :: Expr.data names xs

end

mutual

def Stmt.datum (names : List Bytes) : Stmt → Node
  | .absent => .symbol (ascii "nil")
  | .block _ body => entry "block" (Stmt.data names body)
  | .cond _ test yes no =>
    entry "if" (test.datum names :: yes.datum names :: if no.isAbsent then [] else [no.datum names])
  | .loop _ first test step body =>
    entry "for" [first.datum names, test.datum names, step.datum names, body.datum names]
  | .ret _ x => entry "return" [x.datum names]
  | .expr _ x => entry "expr" [x.datum names]

def Stmt.data (names : List Bytes) : List Stmt → List Node
  | [] => []
  | x :: xs => x.datum names :: Stmt.data names xs

end

def Local.datum (v : Local) : Node := entry "local" [.string v.name, v.type.datum]

def Function.data (f : Function) (stmts : List Stmt) : List Node :=
  [entry "locals" (f.locals.map Local.datum),
    entry "block" (Stmt.data (f.locals.map Local.name) stmts)]

def Function.stmts (f : Function) : List Stmt := f.body.elim [] Body.stmts

def Function.datum (f : Function) : Node :=
  entry "func" (.string f.name :: f.returnType.datum :: f.data f.stmts)

def Program.datum (p : Program) : Node :=
  match p.topLevel, p.funcs with
  | true, [f] => entry "program" (f.data f.stmts)
  | _, funcs => entry "program" (funcs.map Function.datum)

/-! The text of a datum -/

theorem print_entry (head : String) (items : List Node) :
    (entry head items).print = form head (items.map Node.print) := by
  have ht : ∀ n, Node.printItems Text.isPrintable (n :: items) ++ [byte ')'] =
      n.print ++ formTail (items.map Node.print) := by
    induction items with
    | nil =>
      intro n
      rw [Node.printItems]
      rfl
    | cons i items ih =>
      intro n
      rw [Node.printItems, List.append_assoc, ih i, List.map_cons, formTail, List.append_assoc]
      · rfl
      · exact List.cons_ne_nil i items
  rw [entry, Node.print, SExpr.print_list, ht]
  rfl

/-- A text that stands in a datum as it stands in the tree. -/
theorem print_string {t : Bytes} (h : ∀ b ∈ t, Text.isPlain b) :
    (Node.string t).print = named t := by
  rw [Node.string, Node.print, Node.printBy, ← Text.quote, Text.quote_plain h]
  rfl

theorem Token.IsName.isPlain {name : Bytes} (h : Token.IsName name) :
    ∀ b ∈ name, Text.isPlain b := by
  have hd : ∀ b, Token.isIdentPart b → Text.isPlain b := forall_byte (by decide +kernel)
  exact fun b hb => hd b (h.2 b hb)

theorem Requirements.Supports.mem_all {req : Requirements} {op : BinaryOp} (h : req.Supports op) :
    op ∈ BinaryOp.all := by
  cases op with
  | invalid code => exact absurd h (by simp [Requirements.Supports, Lowering.native?, needs])
  | _ => decide

theorem Requirements.Supports.isPlain {req : Requirements} {op : BinaryOp} (h : req.Supports op) :
    ∀ b ∈ op.text, Text.isPlain b := by
  have hd : ∀ op ∈ BinaryOp.all, ∀ b ∈ op.text, Text.isPlain b := by decide +kernel
  exact hd op h.mem_all

theorem Ty.print_datum (type : Ty) : type.datum.print = type.dump := by
  induction type with
  | int => rfl
  | ptr base ih =>
    rw [datum, print_entry, dump, List.map_cons, ih]
    rfl

private theorem getElem?_names {locals : List Local} {i : Nat} (h : i < locals.length) :
    (locals.map Local.name)[i]?.getD [] = locals[i].name := by
  simp [h]

section Dump

variable {locals : List Local} {req : Requirements} (hl : ∀ v ∈ locals, Token.IsName v.name)
include hl

theorem Expr.dump?_eq_print {x : Expr} (h : x.Proper locals.length req) :
    x.dump? locals = some (x.datum (locals.map Local.name)).print := by
  induction h with
  | num =>
    rw [dump?, datum, print_entry]
    rfl
  | @var pos i bound =>
    have hg : getLocal? locals i = some locals[i] := List.getElem?_eq_getElem bound
    have hs := print_string (hl _ (List.getElem_mem bound)).isPlain
    rw [dump?, hg, datum, print_entry, Int.toNat_natCast, getElem?_names bound, List.map_singleton,
      hs]
    rfl
  | neg operand ih | addr operand ih | deref operand ih =>
    rw [dump?, ih, datum, print_entry]
    rfl
  | binary supported left right ih₁ ih₂ =>
    rw [dump?, ih₁, ih₂, datum, print_entry, List.map_cons, print_string supported.isPlain]
    rfl
  | assign left right ih₁ ih₂ =>
    rw [dump?, ih₁, ih₂, datum, print_entry]
    rfl
  | @call pos name args isName arguments ih =>
    have ha : Expr.dumpAll? locals args =
        some ((Expr.data (locals.map Local.name) args).map Node.print) := by
      clear arguments
      induction args with
      | nil => rfl
      | cons a args iha =>
        rw [List.forall_mem_cons] at ih
        rw [Expr.dumpAll?, ih.1, iha ih.2, Expr.data]
        rfl
    rw [dump?, ha, datum, print_entry, List.map_cons, print_string isName.isPlain]
    rfl

theorem Expr.dump?_eq_print_optional {x : Expr}
    (h : x.isAbsent = false → x.Proper locals.length req) :
    x.dump? locals = some (x.datum (locals.map Local.name)).print :=
  x.absent_or rfl fun ha => dump?_eq_print hl (h ha)

omit hl in
theorem Stmt.dumpAll?_eq_print {xs : List Stmt}
    (h : ∀ x ∈ xs, x.dump? locals = some (x.datum (locals.map Local.name)).print) :
    Stmt.dumpAll? locals xs = some ((Stmt.data (locals.map Local.name) xs).map Node.print) := by
  induction xs with
  | nil => rfl
  | cons x xs ih =>
    rw [List.forall_mem_cons] at h
    rw [Stmt.dumpAll?, h.1, ih h.2, Stmt.data]
    rfl

theorem Stmt.dump?_eq_print {x : Stmt} (h : x.Proper locals.length req) :
    x.dump? locals = some (x.datum (locals.map Local.name)).print := by
  induction h with
  | block inner ih =>
    rw [dump?, dumpAll?_eq_print ih, datum, print_entry]
    rfl
  | @cond pos test yes no tested first second ih₁ ih₂ =>
    rw [dump?, Expr.dump?_eq_print hl tested, ih₁, datum, print_entry]
    cases ha : no.isAbsent with
    | true => rfl
    | false =>
      simp only [ih₂ ha]
      rfl
  | @loop pos first body test step started tested stepped inner ih₁ ih₂ =>
    have hf : first.dump? locals = some (first.datum (locals.map Local.name)).print :=
      first.absent_or rfl ih₁
    rw [dump?, hf, Expr.dump?_eq_print_optional hl tested, Expr.dump?_eq_print_optional hl stepped,
      ih₂, datum, print_entry]
    rfl
  | ret value | expr value =>
    rw [dump?, Expr.dump?_eq_print hl value, datum, print_entry]
    rfl

end Dump

theorem Local.print_datum {v : Local} (h : Token.IsName v.name) : v.datum.print = v.dump := by
  rw [datum, print_entry, List.map_cons, List.map_singleton, print_string h.isPlain, Ty.print_datum]
  rfl

section Programs

variable {req : Requirements}

theorem Function.dumpParts?_eq_print {f : Function} (h : f.Proper req)
    (hl : ∀ v ∈ f.locals, Token.IsName v.name) :
    f.dumpParts? = some ((f.data f.stmts).map Node.print) := by
  obtain ⟨b, hb, hs⟩ := h.body
  have hd := Stmt.dumpAll?_eq_print fun x hx => Stmt.dump?_eq_print hl (hs x hx)
  have hv : f.locals.map Local.dump = (f.locals.map Local.datum).map Node.print := by
    rw [List.map_map]
    exact List.map_congr_left fun v hv => (Local.print_datum (hl v hv)).symm
  unfold Function.dumpParts? Function.stmts
  rw [hb, data, List.map_cons, List.map_singleton, print_entry, print_entry, ← hv]
  simp only [Option.bind_eq_bind, Option.bind_some, Option.elim_some, hd]
  rfl

/-- What is shown of a program is the text of its s-expression. -/
theorem Program.dump?_eq_print {p : Program} (h : p.Proper)
    (hl : ∀ f ∈ p.funcs, ∀ v ∈ f.locals, Token.IsName v.name) :
    p.dump? = some p.datum.print := by
  unfold Program.dump? Program.datum
  cases ht : p.topLevel with
  | true =>
    obtain ⟨f, hf⟩ := h.single ht
    have hm : f ∈ p.funcs := hf ▸ List.mem_singleton_self f
    simp only [hf, Function.dumpParts?_eq_print (h.functions f hm) (hl f hm), print_entry,
      Option.map_some]
  | false =>
    have hm : p.funcs.mapM Function.dump? = some ((p.funcs.map Function.datum).map Node.print) := by
      have hf := h.functions
      have hn := h.named ht
      generalize p.funcs = fs at hf hn hl
      induction fs with
      | nil => rfl
      | cons f fs ih =>
        rw [List.forall_mem_cons] at hf hn hl
        rw [List.mapM_cons, ih hf.2 hn.2 hl.2, Function.dump?,
          Function.dumpParts?_eq_print hf.1 hl.1, List.map_cons, List.map_cons, Function.datum,
          print_entry, List.map_cons, List.map_cons, print_string hn.1.isPlain, Ty.print_datum]
        rfl
    simp only [hm, print_entry, Option.map_some]

end Programs

/-! Reading the text back -/

theorem readable_string {t : Bytes} (h : ∀ b ∈ t, Text.isPlain b) :
    Readable Text.isPrintable (.string t) := by
  refine .atom (w := .string t) rfl ?_
  rw [Node.string, Node.printBy]
  exact SExpr.spelled_string h

/-- A symbol that begins with a letter. -/
def isWord : Bytes → Bool
  | [] => false
  | b :: t => Token.isIdentStart b && t.all SExpr.isSymbolByte

theorem readable_symbol {t : Bytes} (h : isWord t) : Readable Text.isPrintable (.symbol t) := by
  cases t with
  | nil => cases h
  | cons b t =>
    simp only [isWord, Bool.and_eq_true, List.all_eq_true] at h
    have hd : ∀ b, Token.isIdentStart b → SExpr.isSymbolByte b ∧ (b == byte '.') = false ∧
        Text.isDigit b = false ∧ SExpr.isSign b = false := forall_byte (by decide +kernel)
    obtain ⟨hb, hdot, hnum, hsign⟩ := hd b h.1
    refine .atom (w := .symbol (b :: t)) rfl ?_
    rw [Node.symbol, Node.printBy]
    exact SExpr.spelled_symbol hb h.2 hdot hnum hsign

theorem readable_integer (n : Int) : Readable Text.isPrintable (.integer (Text.decimal n)) := by
  have hs : ∃ b t, Text.decimal n = b :: t ∧ (Text.isDigit b ∨ (SExpr.isSign b ∧ t ≠ [])) ∧
      ∀ c ∈ t, Text.isDigit c := by
    cases n with
    | ofNat n =>
      obtain ⟨b, t, ht⟩ := Text.exists_decimalNat n
      have hd := Text.isDigit_decimalNat n
      rw [ht, List.forall_mem_cons] at hd
      exact ⟨b, t, ht, .inl hd.1, hd.2⟩
    | negSucc n =>
      obtain ⟨b, t, ht⟩ := Text.exists_decimalNat (n + 1)
      have hne : Text.decimalNat (n + 1) ≠ [] := by simp [ht]
      exact ⟨byte '-', _, rfl, .inr ⟨by decide, hne⟩, Text.isDigit_decimalNat (n + 1)⟩
  obtain ⟨b, t, ht, hb, hd⟩ := hs
  refine .atom (w := .integer (Text.decimal n)) rfl ?_
  rw [Node.integer, Node.printBy, ht]
  exact SExpr.spelled_integer hb hd

theorem readable_entry {head : String} {items : List Node} (hh : isWord (ascii head))
    (h : ∀ n ∈ items, Readable Text.isPrintable n) :
    Readable Text.isPrintable (entry head items) := by
  refine .list ?_
  rw [List.forall_mem_cons]
  exact ⟨readable_symbol hh, h⟩

theorem Ty.readable_datum (type : Ty) : Readable Text.isPrintable type.datum := by
  induction type with
  | int => exact readable_symbol (by decide)
  | ptr base ih => exact readable_entry (by decide) (List.forall_mem_singleton.mpr ih)

section Readable

variable {names : List Bytes} {req : Requirements} (hl : ∀ name ∈ names, Token.IsName name)
include hl

theorem Expr.readable_datum {x : Expr} (h : x.Proper names.length req) :
    Readable Text.isPrintable (x.datum names) := by
  induction h with
  | num => exact readable_entry (by decide) (List.forall_mem_singleton.mpr (readable_integer _))
  | @var pos i bound =>
    have hn : names[i]?.getD [] = names[i] := by simp [bound]
    rw [datum, Int.toNat_natCast, hn]
    have hp := (hl _ (List.getElem_mem bound)).isPlain
    exact readable_entry (by decide) (List.forall_mem_singleton.mpr (readable_string hp))
  | neg operand ih | addr operand ih | deref operand ih =>
    exact readable_entry (by decide) (List.forall_mem_singleton.mpr ih)
  | binary supported left right ih₁ ih₂ =>
    refine readable_entry (by decide) ?_
    rw [List.forall_mem_cons, List.forall_mem_cons, List.forall_mem_singleton]
    exact ⟨readable_string supported.isPlain, ih₁, ih₂⟩
  | assign left right ih₁ ih₂ =>
    refine readable_entry (by decide) ?_
    rw [List.forall_mem_cons, List.forall_mem_singleton]
    exact ⟨ih₁, ih₂⟩
  | @call pos name args isName arguments ih =>
    have ha : ∀ n ∈ Expr.data names args, Readable Text.isPrintable n := by
      clear arguments
      induction args with
      | nil => exact List.forall_mem_nil _
      | cons a args iha =>
        rw [List.forall_mem_cons] at ih
        rw [Expr.data, List.forall_mem_cons]
        exact ⟨ih.1, iha ih.2⟩
    refine readable_entry (by decide) ?_
    rw [List.forall_mem_cons]
    exact ⟨readable_string isName.isPlain, ha⟩

theorem Expr.readable_optional {x : Expr} (h : x.isAbsent = false → x.Proper names.length req) :
    Readable Text.isPrintable (x.datum names) :=
  x.absent_or (readable_symbol (by decide)) fun ha => readable_datum hl (h ha)

omit hl in
theorem Stmt.readable_data {xs : List Stmt}
    (h : ∀ x ∈ xs, Readable Text.isPrintable (x.datum names)) :
    ∀ n ∈ Stmt.data names xs, Readable Text.isPrintable n := by
  induction xs with
  | nil => exact List.forall_mem_nil _
  | cons x xs ih =>
    rw [List.forall_mem_cons] at h
    rw [Stmt.data, List.forall_mem_cons]
    exact ⟨h.1, ih h.2⟩

theorem Stmt.readable_datum {x : Stmt} (h : x.Proper names.length req) :
    Readable Text.isPrintable (x.datum names) := by
  induction h with
  | block inner ih => exact readable_entry (by decide) (readable_data ih)
  | @cond pos test yes no tested first second ih₁ ih₂ =>
    refine readable_entry (by decide) ?_
    rw [List.forall_mem_cons, List.forall_mem_cons]
    refine ⟨Expr.readable_datum hl tested, ih₁, ?_⟩
    cases ha : no.isAbsent with
    | true => exact List.forall_mem_nil _
    | false => exact List.forall_mem_singleton.mpr (ih₂ ha)
  | @loop pos first body test step started tested stepped inner ih₁ ih₂ =>
    have hf : Readable Text.isPrintable (first.datum names) :=
      first.absent_or (readable_symbol (by decide)) ih₁
    refine readable_entry (by decide) ?_
    rw [List.forall_mem_cons, List.forall_mem_cons, List.forall_mem_cons, List.forall_mem_singleton]
    exact ⟨hf, Expr.readable_optional hl tested, Expr.readable_optional hl stepped, ih₂⟩
  | ret value | expr value =>
    exact readable_entry (by decide) (List.forall_mem_singleton.mpr (Expr.readable_datum hl value))

end Readable

theorem Function.readable_data {req : Requirements} {f : Function} (h : f.Proper req)
    (hl : ∀ v ∈ f.locals, Token.IsName v.name) :
    ∀ n ∈ f.data f.stmts, Readable Text.isPrintable n := by
  obtain ⟨b, hb, hs⟩ := h.body
  have hnames : ∀ name ∈ f.locals.map Local.name, Token.IsName name := by
    intro name hn
    obtain ⟨v, hv, rfl⟩ := List.mem_map.mp hn
    exact hl v hv
  have hstmts : ∀ n ∈ Stmt.data (f.locals.map Local.name) f.stmts,
      Readable Text.isPrintable n := by
    apply Stmt.readable_data
    intro x hx
    rw [Function.stmts, hb] at hx
    have hx := hs x hx
    rw [← List.length_map Local.name] at hx
    exact Stmt.readable_datum hnames hx
  have hlocals : ∀ n ∈ f.locals.map Local.datum, Readable Text.isPrintable n := by
    intro n hn
    obtain ⟨v, hv, rfl⟩ := List.mem_map.mp hn
    refine readable_entry (by decide) ?_
    rw [List.forall_mem_cons, List.forall_mem_singleton]
    exact ⟨readable_string (hl v hv).isPlain, v.type.readable_datum⟩
  rw [data, List.forall_mem_cons, List.forall_mem_singleton]
  exact ⟨readable_entry (by decide) hlocals, readable_entry (by decide) hstmts⟩

theorem Program.readable_datum {p : Program} (h : p.Proper)
    (hl : ∀ f ∈ p.funcs, ∀ v ∈ f.locals, Token.IsName v.name) :
    Readable Text.isPrintable p.datum := by
  unfold Program.datum
  cases ht : p.topLevel with
  | true =>
    obtain ⟨f, hf⟩ := h.single ht
    have hm : f ∈ p.funcs := hf ▸ List.mem_singleton_self f
    rw [hf]
    exact readable_entry (by decide) (Function.readable_data (h.functions f hm) (hl f hm))
  | false =>
    refine readable_entry (by decide) ?_
    intro n hn
    obtain ⟨f, hf, rfl⟩ := List.mem_map.mp hn
    refine readable_entry (by decide) ?_
    rw [List.forall_mem_cons, List.forall_mem_cons]
    refine ⟨readable_string (h.named ht f hf).isPlain, f.returnType.readable_datum, ?_⟩
    exact Function.readable_data (h.functions f hf) (hl f hf)

/-- The text of a parsed program is read as its s-expression. -/
theorem Program.read_dump {p : Program} {d : Bytes} (h : p.Proper)
    (hl : ∀ f ∈ p.funcs, ∀ v ∈ f.locals, Token.IsName v.name) (hd : p.dump? = some d) :
    SExpr.read (d ++ [Text.newline]) = .ok p.datum := by
  rw [p.dump?_eq_print h hl] at hd
  cases hd
  refine SExpr.read_print (p.readable_datum h hl) ?_
  rw [List.forall_mem_singleton]
  decide

end StackC
