import StackC.Proofs.Tree.Unambiguous

/-! How an expression is written with as few parentheses as the grammar allows. An expression is
given here as a term, which knows variables by their names and no offsets. -/
namespace StackC

/-- An expression with variables by name and without offsets. -/
inductive Term
  | num (value : Int)
  | var (name : Bytes)
  | neg (x : Term)
  | addr (x : Term)
  | deref (x : Term)
  | binary (op : BinaryOp) (l r : Term)
  | assign (l r : Term)
  | call (name : Bytes) (args : List Term)

/-- The level of an operator, counted from the tightest. -/
def BinaryOp.level : BinaryOp → Nat
  | .add | .sub => 1
  | .lt | .le => 2
  | .eq | .ne => 3
  | _ => 0

theorem BinaryOp.level_lt (op : BinaryOp) : op.level < Grammar.levels := by
  cases op <;> simp [level, Grammar.levels]

namespace Term

/-- The loosest operator that stands outside all parentheses: none or a unary one, one of the four
levels of binary ones, or an assignment. -/
def level : Term → Nat
  | binary op _ _ => op.level + 1
  | assign .. => Grammar.levels + 1
  | _ => 0

theorem level_le (x : Term) : x.level ≤ Grammar.levels + 1 := by
  cases x with
  | binary op l r => exact Nat.succ_le_succ (Nat.le_of_lt op.level_lt)
  | assign l r => exact Nat.le_refl _
  | _ => exact Nat.zero_le _

mutual

/-- The operators exist, and no variable has the reserved name. -/
def legal : Term → Bool
  | num _ => true
  | var name => name != scratchName
  | neg x | addr x | deref x => x.legal
  | binary op l r => BinaryOp.all.contains op && l.legal && r.legal
  | assign l r => l.legal && r.legal
  | call _ args => allLegal args

def allLegal : List Term → Bool
  | [] => true
  | x :: xs => x.legal && allLegal xs

end

/-- A token by its kind and text, without an offset. -/
def mark (kind : TokenKind) (lit : Bytes) : Token := ⟨kind, SourceError.noOffset, lit, 0⟩

def punct (text : String) : Token := mark .punct (ascii text)

/-- What stands at a place for operators up to a limit: parentheses are around it only if it is
looser. -/
def fit (limit level : Nat) (w : List Token) : List Token :=
  if level ≤ limit then w else punct "(" :: w ++ [punct ")"]

mutual

/-- The tokens of a term. The left operand of a binary operator may be of its own level, the right
one may not. -/
def spell : Term → List Token
  | num n => [⟨.num, SourceError.noOffset, Text.decimal n, n⟩]
  | var name => [mark .ident name]
  | neg x => punct "-" :: fit 0 x.level x.spell
  | addr x => punct "&" :: fit 0 x.level x.spell
  | deref x => punct "*" :: fit 0 x.level x.spell
  | binary op l r =>
    fit (op.level + 1) l.level l.spell ++ mark .punct op.text :: fit op.level r.level r.spell
  | assign l r =>
    fit Grammar.levels l.level l.spell ++ punct "=" :: fit Grammar.levels r.level r.spell
  | call name args => mark .ident name :: punct "(" :: spellAll args ++ [punct ")"]

def spellAll : List Term → List Token
  | [] => []
  | [x] => x.spell
  | x :: y :: xs => x.spell ++ punct "," :: spellAll (y :: xs)

end

theorem kind_of_mem_fit (limit level : Nat) {w : List Token} (h : ∀ t ∈ w, t.kind ≠ .eof) :
    ∀ t ∈ fit limit level w, t.kind ≠ .eof := by
  unfold fit
  split
  · exact h
  · rw [List.forall_mem_append, List.forall_mem_cons, List.forall_mem_singleton]
    exact ⟨⟨nofun, h⟩, nofun⟩

mutual

/-- No end mark is among the tokens of a term. -/
theorem kind_of_mem_spell (x : Term) : ∀ t ∈ x.spell, t.kind ≠ .eof := by
  match x with
  | num _ | var _ => exact List.forall_mem_singleton.mpr nofun
  | neg x | addr x | deref x =>
    exact List.forall_mem_cons.mpr ⟨nofun, kind_of_mem_fit _ _ (kind_of_mem_spell x)⟩
  | binary _ l r | assign l r =>
    rw [spell, List.forall_mem_append, List.forall_mem_cons]
    exact ⟨kind_of_mem_fit _ _ (kind_of_mem_spell l), nofun,
      kind_of_mem_fit _ _ (kind_of_mem_spell r)⟩
  | call _ args =>
    rw [spell, List.forall_mem_append, List.forall_mem_cons, List.forall_mem_cons,
      List.forall_mem_singleton]
    exact ⟨⟨nofun, nofun, kind_of_mem_spellAll args⟩, nofun⟩

theorem kind_of_mem_spellAll (xs : List Term) : ∀ t ∈ spellAll xs, t.kind ≠ .eof := by
  match xs with
  | [] => exact List.forall_mem_nil _
  | [x] => exact kind_of_mem_spell x
  | x :: y :: xs =>
    rw [spellAll, List.forall_mem_append, List.forall_mem_cons]
    exact ⟨kind_of_mem_spell x, nofun, kind_of_mem_spellAll (y :: xs)⟩

end

def block (x : Term) : List Token :=
  punct "\x7b" :: mark .keyword (ascii "return") :: x.spell ++ [punct ";", punct "\x7d"]

theorem kind_of_mem_block (x : Term) : ∀ t ∈ x.block, t.kind ≠ .eof := by
  rw [block, List.forall_mem_append, List.forall_mem_cons, List.forall_mem_cons,
    List.forall_mem_cons, List.forall_mem_singleton]
  exact ⟨⟨nofun, nofun, kind_of_mem_spell x⟩, nofun, nofun⟩

end Term

mutual

/-- The term of an expression, from the names of the locals. There is none if a part is absent or a
variable has no local. -/
def Expr.term? (names : List Bytes) : Expr → Option Term
  | .absent => none
  | .num _ n => some (.num n)
  | .neg _ x => (x.term? names).map .neg
  | .addr _ x => (x.term? names).map .addr
  | .deref _ x => (x.term? names).map .deref
  | .binary _ op l r => do return .binary op (← l.term? names) (← r.term? names)
  | .assign _ l r => do return .assign (← l.term? names) (← r.term? names)
  | .var _ (.ofNat i) => names[i]?.map .var
  | .var _ (.negSucc _) => none
  | .call _ name args => (Expr.terms? names args).map (.call name)

def Expr.terms? (names : List Bytes) : List Expr → Option (List Term)
  | [] => some []
  | x :: xs => do return (← x.term? names) :: (← Expr.terms? names xs)

end

mutual

/-- More locals leave the term of an expression as it is. -/
theorem Expr.term?_of_prefix {names names' : List Bytes} (hn : names <+: names') (e : Expr)
    {x : Term} (h : e.term? names = some x) : e.term? names' = some x := by
  match e with
  | .absent | .var _ (.negSucc _) => cases h
  | .num _ n => exact h
  | .neg _ e | .addr _ e | .deref _ e =>
    simp only [Expr.term?, Option.map_eq_some_iff] at h ⊢
    obtain ⟨y, hy, hx⟩ := h
    exact ⟨y, term?_of_prefix hn e hy, hx⟩
  | .binary _ _ l r | .assign _ l r =>
    simp only [Expr.term?, Option.bind_eq_bind, Option.bind_eq_some_iff] at h ⊢
    obtain ⟨a, ha, b, hb, hx⟩ := h
    exact ⟨a, term?_of_prefix hn l ha, b, term?_of_prefix hn r hb, hx⟩
  | .var _ (.ofNat i) =>
    simp only [Expr.term?, Option.map_eq_some_iff] at h ⊢
    obtain ⟨name, hi, hx⟩ := h
    obtain ⟨hlt, hi⟩ := List.getElem?_eq_some_iff.mp hi
    exact ⟨name, by rw [List.prefix_iff_getElem?.mp hn i hlt, hi], hx⟩
  | .call _ _ args =>
    simp only [Expr.term?, Option.map_eq_some_iff] at h ⊢
    obtain ⟨ys, hy, hx⟩ := h
    exact ⟨ys, terms?_of_prefix hn args hy, hx⟩

theorem Expr.terms?_of_prefix {names names' : List Bytes} (hn : names <+: names') (es : List Expr)
    {xs : List Term} (h : Expr.terms? names es = some xs) : Expr.terms? names' es = some xs := by
  match es with
  | [] => exact h
  | e :: es =>
    simp only [Expr.terms?, Option.bind_eq_bind, Option.bind_eq_some_iff] at h ⊢
    obtain ⟨a, ha, as, has, hx⟩ := h
    exact ⟨a, term?_of_prefix hn e ha, as, terms?_of_prefix hn es has, hx⟩

end

end StackC
