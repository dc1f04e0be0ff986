import StackC.Proofs.Tree.Datum

/-! Two trees with the same s-expression differ in offsets only. -/
namespace StackC

open SExpr (Node)

/-- All offsets are forgotten. -/
def Recast.erase : Recast where
  pos _ := SourceError.noOffset
  req := id
  pos_noOffset := rfl

theorem entry_inj {a b : String} {xs ys : List Node} (h : entry a xs = entry b ys) :
    ascii a = ascii b ∧ xs = ys := by
  unfold entry Node.list Node.symbol at h
  simpa using h

theorem entry_ne_symbol (a : String) (xs : List Node) (t : Bytes) : entry a xs ≠ .symbol t := by
  intro h
  cases h

theorem string_inj {s t : Bytes} (h : Node.string s = .string t) : s = t := by
  unfold Node.string at h
  simpa using h

theorem Ty.datum_inj {a b : Ty} (h : a.datum = b.datum) : a = b := by
  induction a generalizing b with
  | int =>
    cases b with
    | int => rfl
    | ptr base => exact absurd h.symm (entry_ne_symbol _ _ _)
  | ptr base ih =>
    cases b with
    | int => exact absurd h (entry_ne_symbol _ _ _)
    | ptr base' =>
      have hb : base.datum = base'.datum := List.head_eq_of_cons_eq (entry_inj h).2
      rw [ih hb]

section Names

variable {names : List Bytes} {req req' : Requirements}

/-- The text of an operator determines it. -/
theorem BinaryOp.text_inj {op op' : BinaryOp} (hs : req.Supports op) (hs' : req'.Supports op')
    (h : op.text = op'.text) : op = op' := by
  have hd : ∀ op ∈ BinaryOp.all, ∀ op' ∈ BinaryOp.all, op.text = op'.text → op = op' := by decide
  exact hd op hs.mem_all op' hs'.mem_all h

variable (hn : names.Nodup)
include hn

theorem Expr.erase_of_datum {x x' : Expr} (h : x.Proper names.length req)
    (h' : x'.Proper names.length req') (hd : x.datum names = x'.datum names) :
    Recast.erase.expr x = Recast.erase.expr x' := by
  induction h generalizing x' with
  | num =>
    cases h' with
    | num =>
      have he := List.head_eq_of_cons_eq (entry_inj hd).2
      have ht := Text.decimal_inj (congrArg Node.text he)
      rw [Recast.expr, Recast.expr, ht]
      rfl
    | _ => exact absurd (entry_inj hd).1 (by decide)
  | @var pos i bound =>
    cases h' with
    | @var pos' i' bound' =>
      have he := string_inj (List.head_eq_of_cons_eq (entry_inj hd).2)
      simp only [Int.toNat_natCast, bound, bound', getElem?_pos, Option.getD_some] at he
      have hi : i = i' := (List.Nodup.getElem_inj_iff hn).mp he
      rw [Recast.expr, Recast.expr, hi]
      rfl
    | _ => exact absurd (entry_inj hd).1 (by decide)
  | neg operand ih =>
    cases h' with
    | neg operand' =>
      have he := ih operand' (List.head_eq_of_cons_eq (entry_inj hd).2)
      rw [Recast.expr, Recast.expr, he]
      rfl
    | _ => exact absurd (entry_inj hd).1 (by decide)
  | addr operand ih =>
    cases h' with
    | addr operand' =>
      have he := ih operand' (List.head_eq_of_cons_eq (entry_inj hd).2)
      rw [Recast.expr, Recast.expr, he]
      rfl
    | _ => exact absurd (entry_inj hd).1 (by decide)
  | deref operand ih =>
    cases h' with
    | deref operand' =>
      have he := ih operand' (List.head_eq_of_cons_eq (entry_inj hd).2)
      rw [Recast.expr, Recast.expr, he]
      rfl
    | _ => exact absurd (entry_inj hd).1 (by decide)
  | binary supported left right ih₁ ih₂ =>
    cases h' with
    | binary supported' left' right' =>
      obtain ⟨ho, hs⟩ := List.cons_eq_cons.mp (entry_inj hd).2
      obtain ⟨hl, hr⟩ := List.cons_eq_cons.mp hs
      have hop := BinaryOp.text_inj supported supported' (string_inj ho)
      have hl := ih₁ left' hl
      have hr := ih₂ right' (List.head_eq_of_cons_eq hr)
      rw [Recast.expr, Recast.expr, hop, hl, hr]
      rfl
    | _ => exact absurd (entry_inj hd).1 (by decide)
  | assign left right ih₁ ih₂ =>
    cases h' with
    | assign left' right' =>
      obtain ⟨hl, hr⟩ := List.cons_eq_cons.mp (entry_inj hd).2
      have hl := ih₁ left' hl
      have hr := ih₂ right' (List.head_eq_of_cons_eq hr)
      rw [Recast.expr, Recast.expr, hl, hr]
      rfl
    | _ => exact absurd (entry_inj hd).1 (by decide)
  | @call pos name args isName arguments ih =>
    cases h' with
    | @call pos' name' args' isName' arguments' =>
      obtain ⟨hname, hargs⟩ := List.cons_eq_cons.mp (entry_inj hd).2
      have ha : Recast.erase.exprs args = Recast.erase.exprs args' := by
        clear arguments hd
        induction args generalizing args' with
        | nil =>
          cases args' with
          | nil => rfl
          | cons a' args' => cases hargs
        | cons a args iha =>
          cases args' with
          | nil => cases hargs
          | cons a' args' =>
            rw [List.forall_mem_cons] at ih arguments'
            obtain ⟨hfirst, hrest⟩ := List.cons_eq_cons.mp hargs
            have hfirst := ih.1 arguments'.1 hfirst
            have hrest := iha ih.2 arguments'.2 hrest
            rw [Recast.exprs, Recast.exprs, hfirst, hrest]
      rw [Recast.expr, Recast.expr, string_inj hname, ha]
      rfl
    | _ => exact absurd (entry_inj hd).1 (by decide)

omit hn in
theorem Expr.datum_ne_symbol {x : Expr} (h : x.Proper names.length req) (t : Bytes) :
    x.datum names ≠ .symbol t := by
  cases h <;> exact entry_ne_symbol _ _ t

omit hn in
theorem Stmt.datum_ne_symbol {x : Stmt} (h : x.Proper names.length req) (t : Bytes) :
    x.datum names ≠ .symbol t := by
  cases h <;> exact entry_ne_symbol _ _ t

theorem Expr.erase_of_optional {x x' : Expr} (h : x.isAbsent = false → x.Proper names.length req)
    (h' : x'.isAbsent = false → x'.Proper names.length req')
    (hd : x.datum names = x'.datum names) : Recast.erase.expr x = Recast.erase.expr x' := by
  cases ha : x.isAbsent with
  | true =>
    cases Expr.eq_absent ha
    cases ha' : x'.isAbsent with
    | true =>
      cases Expr.eq_absent ha'
      rfl
    | false => exact absurd hd.symm (datum_ne_symbol (h' ha') _)
  | false =>
    cases ha' : x'.isAbsent with
    | true =>
      cases Expr.eq_absent ha'
      exact absurd hd (datum_ne_symbol (h ha) _)
    | false => exact erase_of_datum hn (h ha) (h' ha') hd

omit hn in
/-- A statement that may be missing, given that it is determined if it is there. -/
theorem Stmt.erase_of_optional {x x' : Stmt} (h : x.isAbsent = false → x.Proper names.length req)
    (h' : x'.isAbsent = false → x'.Proper names.length req')
    (ih : x.isAbsent = false → x'.Proper names.length req' → x.datum names = x'.datum names →
      Recast.erase.stmt x = Recast.erase.stmt x')
    (hd : x.datum names = x'.datum names) : Recast.erase.stmt x = Recast.erase.stmt x' := by
  cases ha : x.isAbsent with
  | true =>
    cases Stmt.eq_absent ha
    cases ha' : x'.isAbsent with
    | true =>
      cases Stmt.eq_absent ha'
      rfl
    | false => exact absurd hd.symm (datum_ne_symbol (h' ha') _)
  | false =>
    cases ha' : x'.isAbsent with
    | true =>
      cases Stmt.eq_absent ha'
      exact absurd hd (datum_ne_symbol (h ha) _)
    | false => exact ih ha (h' ha') hd

omit hn in
theorem Stmt.erase_of_data {xs xs' : List Stmt}
    (ih : ∀ x ∈ xs, ∀ x', x'.Proper names.length req' → x.datum names = x'.datum names →
      Recast.erase.stmt x = Recast.erase.stmt x')
    (h' : ∀ x ∈ xs', x.Proper names.length req') (hd : Stmt.data names xs = Stmt.data names xs') :
    Recast.erase.stmts xs = Recast.erase.stmts xs' := by
  induction xs generalizing xs' with
  | nil =>
    cases xs' with
    | nil => rfl
    | cons x' xs' => cases hd
  | cons x xs ihx =>
    cases xs' with
    | nil => cases hd
    | cons x' xs' =>
      rw [List.forall_mem_cons] at ih h'
      obtain ⟨hfirst, hrest⟩ := List.cons_eq_cons.mp hd
      have hfirst := ih.1 x' h'.1 hfirst
      have hrest := ihx ih.2 h'.2 hrest
      rw [Recast.stmts, Recast.stmts, hfirst, hrest]

theorem Stmt.erase_of_datum {x x' : Stmt} (h : x.Proper names.length req)
    (h' : x'.Proper names.length req') (hd : x.datum names = x'.datum names) :
    Recast.erase.stmt x = Recast.erase.stmt x' := by
  induction h generalizing x' with
  | block inner ih =>
    cases h' with
    | block inner' =>
      have hb := erase_of_data (fun x hx x' h' hd => ih x hx h' hd) inner' (entry_inj hd).2
      rw [Recast.stmt, Recast.stmt, hb]
      rfl
    | _ => exact absurd (entry_inj hd).1 (by decide)
  | @cond pos test yes no tested first second ih₁ ih₂ =>
    cases h' with
    | @cond pos' test' yes' no' tested' first' second' =>
      obtain ⟨ht, hs⟩ := List.cons_eq_cons.mp (entry_inj hd).2
      obtain ⟨hy, hno⟩ := List.cons_eq_cons.mp hs
      have ht := Expr.erase_of_datum hn tested tested' ht
      have hy := ih₁ first' hy
      have hno : no.datum names = no'.datum names := by
        cases ha : no.isAbsent with
        | true =>
          cases ha' : no'.isAbsent with
          | true => rw [Stmt.eq_absent ha, Stmt.eq_absent ha']
          | false => simp [ha, ha'] at hno
        | false =>
          cases ha' : no'.isAbsent with
          | true => simp [ha, ha'] at hno
          | false => simpa [ha, ha'] using hno
      have hno := erase_of_optional second second' (fun ha => ih₂ ha) hno
      rw [Recast.stmt, Recast.stmt, ht, hy, hno]
      rfl
    | _ => exact absurd (entry_inj hd).1 (by decide)
  | loop started tested stepped inner ih₁ ih₂ =>
    cases h' with
    | loop started' tested' stepped' inner' =>
      obtain ⟨hf, hs⟩ := List.cons_eq_cons.mp (entry_inj hd).2
      obtain ⟨ht, hs⟩ := List.cons_eq_cons.mp hs
      obtain ⟨hst, hs⟩ := List.cons_eq_cons.mp hs
      have hf := erase_of_optional started started' (fun ha => ih₁ ha) hf
      have ht := Expr.erase_of_optional hn tested tested' ht
      have hst := Expr.erase_of_optional hn stepped stepped' hst
      have hb := ih₂ inner' (List.head_eq_of_cons_eq hs)
      rw [Recast.stmt, Recast.stmt, hf, ht, hst, hb]
      rfl
    | _ => exact absurd (entry_inj hd).1 (by decide)
  | ret value =>
    cases h' with
    | ret value' =>
      have he := Expr.erase_of_datum hn value value' (List.head_eq_of_cons_eq (entry_inj hd).2)
      rw [Recast.stmt, Recast.stmt, he]
      rfl
    | _ => exact absurd (entry_inj hd).1 (by decide)
  | expr value =>
    cases h' with
    | expr value' =>
      have he := Expr.erase_of_datum hn value value' (List.head_eq_of_cons_eq (entry_inj hd).2)
      rw [Recast.stmt, Recast.stmt, he]
      rfl
    | _ => exact absurd (entry_inj hd).1 (by decide)

end Names

section Programs

variable {req req' : Requirements}

private theorem vars_of_datum {locals locals' : List Local}
    (h : locals.map Local.datum = locals'.map Local.datum) :
    Recast.erase.vars locals = Recast.erase.vars locals' := by
  have hv : ∀ v v' : Local, v.datum = v'.datum → v.name = v'.name ∧ v.type = v'.type := by
    intro v v' hd
    obtain ⟨hname, htype⟩ := List.cons_eq_cons.mp (entry_inj hd).2
    exact ⟨string_inj hname, Ty.datum_inj (List.head_eq_of_cons_eq htype)⟩
  unfold Recast.vars
  induction locals generalizing locals' with
  | nil =>
    rw [List.map_nil, eq_comm, List.map_eq_nil_iff] at h
    rw [h]
  | cons v locals ih =>
    cases locals' with
    | nil => cases h
    | cons v' locals' =>
      obtain ⟨hfirst, hrest⟩ := List.cons_eq_cons.mp h
      obtain ⟨hname, htype⟩ := hv v v' hfirst
      rw [List.map_cons, List.map_cons, hname, htype, ih hrest]
      rfl

/-- The locals and the body of a function are determined. -/
theorem Function.erase_of_data {f f' : Function} (h : f.Proper req) (h' : f'.Proper req')
    (hd : f.data f.stmts = f'.data f'.stmts) :
    Recast.erase.vars f.locals = Recast.erase.vars f'.locals ∧
      f.body.map Recast.erase.body = f'.body.map Recast.erase.body := by
  obtain ⟨b, hb, hs⟩ := h.body
  obtain ⟨b', hb', hs'⟩ := h'.body
  obtain ⟨hlocals, hblock⟩ := List.cons_eq_cons.mp hd
  have hv := vars_of_datum (entry_inj hlocals).2
  have hnames : f.locals.map Local.name = f'.locals.map Local.name := by
    have hm := congrArg (List.map Local.name) hv
    rw [Recast.vars, Recast.vars, List.map_map, List.map_map] at hm
    exact hm
  have hstmts := (entry_inj (List.head_eq_of_cons_eq hblock)).2
  rw [stmts, stmts, hb, hb', ← hnames] at hstmts
  rw [← List.length_map Local.name] at hs
  rw [← List.length_map Local.name, ← hnames] at hs'
  have he : Recast.erase.stmts b.stmts = Recast.erase.stmts b'.stmts :=
    Stmt.erase_of_data (fun x hx x' h' hd => Stmt.erase_of_datum h.distinct (hs x hx) h' hd) hs'
      hstmts
  refine ⟨hv, ?_⟩
  rw [hb, hb', Option.map_some, Option.map_some, Recast.body, Recast.body, he]
  rfl

theorem Function.erase_of_datum {f f' : Function} (h : f.Proper req) (h' : f'.Proper req')
    (hd : f.datum = f'.datum) : Recast.erase.function f = Recast.erase.function f' := by
  obtain ⟨hname, hs⟩ := List.cons_eq_cons.mp (entry_inj hd).2
  obtain ⟨htype, hdata⟩ := List.cons_eq_cons.mp hs
  obtain ⟨hv, hb⟩ := erase_of_data h h' hdata
  rw [Recast.function, Recast.function, hv, hb, string_inj hname, Ty.datum_inj htype]
  rfl

/-- A program of one block has a function without a name. -/
def Program.Blank (p : Program) : Prop :=
  p.topLevel = true → ∃ f, p.funcs = [f] ∧ f.name = [] ∧ f.returnType = .int

theorem Function.map_erase_of_datum {fs fs' : List Function} (h : ∀ f ∈ fs, f.Proper req)
    (h' : ∀ f ∈ fs', f.Proper req') (hd : fs.map Function.datum = fs'.map Function.datum) :
    fs.map Recast.erase.function = fs'.map Recast.erase.function := by
  induction fs generalizing fs' with
  | nil =>
    rw [List.map_nil, eq_comm, List.map_eq_nil_iff] at hd
    rw [hd]
  | cons f fs ih =>
    cases fs' with
    | nil => cases hd
    | cons f' fs' =>
      rw [List.forall_mem_cons] at h h'
      obtain ⟨hfirst, hrest⟩ := List.cons_eq_cons.mp hd
      rw [List.map_cons, List.map_cons, erase_of_datum h.1 h'.1 hfirst, ih h.2 h'.2 hrest]

/-- A single block is not shown like a list of functions. -/
theorem Function.data_ne_map (f : Function) (stmts : List Stmt) (fs : List Function) :
    f.data stmts ≠ fs.map Function.datum := by
  intro h
  cases fs with
  | nil => cases h
  | cons g fs =>
    have hh := List.head_eq_of_cons_eq h
    exact absurd (entry_inj hh).1 (by decide)

/-- The functions of a program are determined, and whether it is a single block. -/
theorem Program.funcs_of_datum {p p' : Program} (h : p.Proper) (h' : p'.Proper) (hb : p.Blank)
    (hb' : p'.Blank) (hd : p.datum = p'.datum) :
    p.topLevel = p'.topLevel ∧
      p.funcs.map Recast.erase.function = p'.funcs.map Recast.erase.function := by
  unfold Program.datum at hd
  cases ht : p.topLevel with
  | true =>
    obtain ⟨f, hf, hname, htype⟩ := hb ht
    cases ht' : p'.topLevel with
    | true =>
      obtain ⟨f', hf', hname', htype'⟩ := hb' ht'
      simp only [ht, ht', hf, hf'] at hd
      have hm : f ∈ p.funcs := hf ▸ List.mem_singleton_self f
      have hm' : f' ∈ p'.funcs := hf' ▸ List.mem_singleton_self f'
      obtain ⟨hv, hbody⟩ :=
        Function.erase_of_data (h.functions f hm) (h'.functions f' hm') (entry_inj hd).2
      refine ⟨rfl, ?_⟩
      rw [hf, hf', List.map_singleton, List.map_singleton, Recast.function, Recast.function, hv,
        hbody, hname, hname', htype, htype']
      rfl
    | false =>
      simp only [ht, ht', hf] at hd
      exact absurd (entry_inj hd).2 (Function.data_ne_map _ _ _)
  | false =>
    cases ht' : p'.topLevel with
    | true =>
      obtain ⟨f', hf', -, -⟩ := hb' ht'
      simp only [ht, ht', hf'] at hd
      exact absurd (entry_inj hd).2.symm (Function.data_ne_map _ _ _)
    | false =>
      simp only [ht, ht'] at hd
      exact ⟨rfl, Function.map_erase_of_datum h.functions h'.functions (entry_inj hd).2⟩

end Programs

end StackC
