import StackC.Proofs.Derivation.CompleteExpr
import StackC.Proofs.Reading.Locals
import StackC.Proofs.Tree.Spelling

/-! A term written with as few parentheses as possible is read back as itself. -/
namespace StackC.Grammar
open StackC.Derivation StackC.Term

section Tokens

variable {t : Token}

theorem is_of_erase {lit : Bytes} (h : Recast.erase.token t = mark .punct lit) : t.is lit := by
  rw [← Recast.erase.token_is, h]
  simp [mark, Token.is]

theorem kind_of_erase {t' : Token} (h : Recast.erase.token t = t') : t.kind = t'.kind := by
  rw [← h, Recast.token]

end Tokens

theorem State.eq_pushAll {s : State} {w rest : List Token} (h : s.ahead = w ++ rest) :
    s = State.pushAll { s with ahead := rest } w := by
  rw [State.pushAll, ← h]

theorem State.eq_push {s : State} {t : Token} {rest : List Token} (h : s.ahead = t :: rest) :
    s = State.push { s with ahead := rest } t := by
  rw [State.push, ← h]

theorem State.pushAll_cons (s : State) (t : Token) (w : List Token) :
    s.pushAll (t :: w) = (s.pushAll w).push t := rfl

theorem State.pushAll_append (s : State) (a b : List Token) :
    s.pushAll (a ++ b) = (s.pushAll b).pushAll a := by
  simp [State.pushAll]

theorem nextSlack_congr {s s' : State} (h : s.ahead = s'.ahead) : nextSlack s = nextSlack s' := by
  rw [nextSlack, nextSlack, h]

theorem nextSlack_push {s : State} {t : Token} {lit : Bytes} (h : t.is lit) :
    nextSlack (s.push t) = slack lit :=
  nextSlack_of_starts (s := s.push t) h

/-- The names after an expression are those before it and new ones behind them. -/
theorem prefix_localNames {f : Form} {s s' : State} {xs : List Expr} (h : Reads f s xs s') :
    localNames s <+: localNames s' :=
  (adds_of_reads h).locals.map Local.name

/-- The tokens before a state are read as the term. -/
def Yields (f : Form) (x : Term) (w : List Token) (s : State) : Prop :=
  ∃ e s₁, Reads f (s.pushAll w) [e] s₁ ∧ s₁.ahead = s.ahead ∧ e.term? (localNames s₁) = some x

/-- The tokens before a state are read as the term, as the left operand of a level that may go
on. -/
def Leads (n : Nat) (x : Term) (w : List Token) (s : State) : Prop :=
  ∃ e s₁, s₁.ahead = s.ahead ∧ e.term? (localNames s₁) = some x ∧
    ∀ y s₂, Reads (.chain n e) s₁ [y] s₂ → Reads (.binary (n + 1)) (s.pushAll w) [y] s₂

/-- The tokens before a state are read as the term where operators up to a level may stand, unless
the next token ties tighter. -/
def ReadAt : Nat → Term → List Token → State → Prop
  | 0, x, w, s => 0 < nextSlack s → Yields (.binary 0) x w s
  | n + 1, x, w, s =>
    if n < levels then n < nextSlack s → Leads n x w s
    else levels + 1 < nextSlack s → Yields .assign x w s

section Levels

variable {n : Nat} {x : Term} {w : List Token} {s : State}

theorem Yields.leads (h : Yields (.binary n) x w s) : Leads n x w s := by
  obtain ⟨e, s₁, hr, ha, hx⟩ := h
  exact ⟨e, s₁, ha, hx, fun y s₂ hc => .level hr hc⟩

theorem Leads.yields (h : Leads n x w s) (hs : n + 1 < nextSlack s) :
    Yields (.binary (n + 1)) x w s := by
  obtain ⟨e, s₁, ha, hx, hc⟩ := h
  have hn : nextSlack s₁ ≠ n + 1 := by
    rw [nextSlack_congr ha]
    omega
  exact ⟨e, s₁, hc e s₁ (.endChain (noOperator_of_slack hn)), ha, hx⟩

theorem Yields.assign (h : Yields (.binary levels) x w s) (hs : levels + 1 < nextSlack s) :
    Yields .assign x w s := by
  obtain ⟨e, s₁, hr, ha, hx⟩ := h
  have hn : nextSlack s₁ ≠ slack (ascii "=") := by
    rw [nextSlack_congr ha]
    exact Nat.ne_of_gt hs
  exact ⟨e, s₁, .value hr (starts_eq_false hn), ha, hx⟩

theorem Yields.tightest (h : Yields .unary x w s) : ReadAt 0 x w s := by
  obtain ⟨e, s₁, hr, ha, hx⟩ := h
  exact fun _ => ⟨e, s₁, .tightest hr, ha, hx⟩

theorem Yields.operand {t : Token} (h : Yields .primary x (t :: w) s) (ht : Rule.primary.first t) :
    ReadAt 0 x (t :: w) s := by
  obtain ⟨e, s₁, hr, ha, hx⟩ := h
  have hn : (s.pushAll (t :: w)).noUnary := noUnary_of_first (s := s.pushAll w) ht
  exact Yields.tightest ⟨e, s₁, .operand hn hr, ha, hx⟩

theorem ReadAt.leads (h : ReadAt (n + 1) x w s) (hn : n < levels) (hs : n < nextSlack s) :
    Leads n x w s := by
  simp only [ReadAt, if_pos hn] at h
  exact h hs

theorem ReadAt.yields (h : ReadAt n x w s) (hn : n ≤ levels) (hs : n < nextSlack s) :
    Yields (.binary n) x w s := by
  cases n with
  | zero => exact h hs
  | succ n => exact (h.leads hn (Nat.lt_of_succ_lt hs)).yields hs

theorem ReadAt.assign (h : ReadAt (levels + 1) x w s) (hs : levels + 1 < nextSlack s) :
    Yields .assign x w s :=
  h hs

/-- What may stand at a place may stand at a looser one. -/
theorem ReadAt.succ (h : ReadAt n x w s) (hn : n ≤ levels) : ReadAt (n + 1) x w s := by
  simp only [ReadAt]
  split
  · exact fun hs => (h.yields hn hs).leads
  · have hn : n = levels := by omega
    subst hn
    exact fun hs => (h.yields hn (Nat.lt_of_succ_lt hs)).assign hs

theorem ReadAt.mono {m : Nat} (h : ReadAt n x w s) (hm : n ≤ m) (hl : m ≤ levels + 1) :
    ReadAt m x w s := by
  induction hm with
  | refl => exact h
  | @step m hm ih => exact (ih (by omega)).succ (by omega)

end Levels

/-- The tokens of a term are read as that term at the tightest place where it may stand. -/
def Readable (x : Term) : Prop :=
  ∀ w s, w.map Recast.erase.token = x.spell → ReadAt x.level x w s

section Terms

variable {x l r : Term} {w : List Token} {s : State}

/-- A term in parentheses. -/
theorem yields_paren (h : Readable x)
    (hw : w.map Recast.erase.token = punct "(" :: x.spell ++ [punct ")"]) :
    ∃ t w', w = t :: w' ∧ t.is (ascii "(") ∧ Yields .primary x w s := by
  obtain ⟨t, w, rfl, ht, hw⟩ := List.map_eq_cons_iff.mp hw
  obtain ⟨a, b, rfl, ha, hb⟩ := List.map_eq_append_iff.mp hw
  obtain ⟨t₁, rfl, ht₁⟩ := List.map_eq_singleton_iff.mp hb
  have opens : t.is (ascii "(") := is_of_erase ht
  have closes : t₁.is (ascii ")") := is_of_erase ht₁
  have hi : ReadAt (levels + 1) x a (State.push { s with fresh := none } t₁) :=
    (h _ _ ha).mono x.level_le (Nat.le_refl _)
  obtain ⟨e, s₁, hr, hs₁, hx⟩ := hi.assign (by rw [nextSlack_push closes]; decide)
  rw [State.eq_push hs₁] at hr
  refine ⟨t, a ++ [t₁], rfl, opens, e, { s₁ with ahead := s.ahead }, ?_, rfl, hx⟩
  rw [State.pushAll_cons, State.pushAll_append]
  exact .paren opens hr closes

/-- A term at any place, in parentheses where it needs them. -/
theorem readAt_fit {n : Nat} (h : Readable x) (hn : n ≤ levels + 1)
    (hw : w.map Recast.erase.token = fit n x.level x.spell) : ReadAt n x w s := by
  unfold fit at hw
  split at hw
  case isTrue hl => exact (h w s hw).mono hl hn
  case isFalse hl =>
    obtain ⟨t, w, rfl, ht, hy⟩ := yields_paren (s := s) h hw
    exact (hy.operand (by simp [Rule.first, ht])).mono (Nat.zero_le n) hn

private theorem readable_num (n : Int) : Readable (.num n) := by
  intro w s hw
  obtain ⟨t, rfl, ht⟩ := List.map_eq_singleton_iff.mp hw
  have isNumber : t.kind = .num := kind_of_erase ht
  have hv : t.val = n := congrArg Token.val ht
  refine Yields.operand ⟨.num t.pos t.val, { s with fresh := none }, .number isNumber, rfl, ?_⟩
    (by simp [Rule.first, isNumber])
  rw [Expr.term?, hv]

private theorem readable_var {name : Bytes} (hn : name ≠ scratchName) : Readable (.var name) := by
  intro w s hw hs
  obtain ⟨t, rfl, ht⟩ := List.map_eq_singleton_iff.mp hw
  have isName : t.kind = .ident := kind_of_erase ht
  have hl : t.lit = name := congrArg Token.lit ht
  have noCall : s.starts (ascii "(") = false := starts_eq_false (Nat.ne_of_gt hs)
  obtain ⟨i, locals, fresh, known⟩ := exists_resolve s.locals (hl.trans_ne hn)
  refine Yields.operand ⟨.var t.pos i, { s with locals, fresh }, .name isName noCall known, rfl, ?_⟩
    (by simp [Rule.first, isName]) hs
  change (locals.map Local.name)[i]?.map Term.var = _
  rw [getElem?_of_resolve known, hl, Option.map_some]

section Unary

variable {t : Token}

private theorem unary?_neg (h : t.is (ascii "-")) : unary? t = some .neg := if_pos h

private theorem unary?_addr (h : t.is (ascii "&")) : unary? t = some .addr := by
  have hm : t.is (ascii "-") = false := Token.is_eq_false_of_is h (by decide)
  simp [unary?, h, hm]

private theorem unary?_deref (h : t.is (ascii "*")) : unary? t = some .deref := by
  have hm : t.is (ascii "-") = false := Token.is_eq_false_of_is h (by decide)
  have ha : t.is (ascii "&") = false := Token.is_eq_false_of_is h (by decide)
  simp [unary?, h, hm, ha]

end Unary

/-- A unary operator reads the term behind it at the tightest place. -/
theorem readable_unary {node : Int → Expr → Expr} {term : Term → Term} {text : String}
    (h : Readable x) (hl : (term x).level = 0)
    (hs : (term x).spell = punct text :: fit 0 x.level x.spell)
    (hp : ascii text ≠ ascii "+") (isOp : ∀ t : Token, t.is (ascii text) → unary? t = some node)
    (hn : ∀ names pos e, (node pos e).term? names = (e.term? names).map term) :
    Readable (term x) := by
  intro w s hw
  rw [hs] at hw
  rw [hl]
  intro hslack
  obtain ⟨t, w, rfl, ht, hw⟩ := List.map_eq_cons_iff.mp hw
  have ht : t.is (ascii text) := is_of_erase ht
  obtain ⟨e, s₁, hr, ha, hx⟩ := readAt_fit h (Nat.zero_le _) hw hslack
  cases hr with
  | tightest hr =>
    have noPlus := Token.is_eq_false_of_is ht hp
    refine Yields.tightest ⟨node t.pos e, _, .unary noPlus (isOp t ht) hr, ha, ?_⟩ hslack
    rw [hn, localNames, map_name_inferDeref, ← localNames, hx, Option.map_some]

/-- The token of an operator stands for it on its level. -/
theorem operator?_level {op : BinaryOp} {t : Token} (hop : op ∈ BinaryOp.all) (ht : t.is op.text) :
    operator? op.level t = some (op, false) := by
  cases op with
  | invalid n => simp [BinaryOp.all] at hop
  | add | mul | eq | lt => exact if_pos ht
  | sub | div | ne | le =>
    exact (if_neg (Bool.not_eq_true _ ▸ Token.is_eq_false_of_is ht (by decide))).trans (if_pos ht)

private theorem readable_binary {op : BinaryOp} (hop : op ∈ BinaryOp.all) (hl : Readable l)
    (hr : Readable r) : Readable (.binary op l r) := by
  intro w s hw
  have hlt := op.level_lt
  obtain ⟨a, b, rfl, ha, hb⟩ := List.map_eq_append_iff.mp hw
  obtain ⟨t, b, rfl, ht, hb⟩ := List.map_eq_cons_iff.mp hb
  have isOp := operator?_level hop (is_of_erase ht)
  simp only [Term.level, ReadAt, if_pos hlt]
  intro hs
  have hn : nextSlack ((s.pushAll b).push t) = op.level + 1 :=
    nextSlack_of_operator? (Option.isSome_of_eq_some isOp)
  obtain ⟨e₁, s₁, ha₁, hx₁, hc⟩ :=
    (readAt_fit (s := (s.pushAll b).push t) hl (by omega) ha).leads hlt (by omega)
  obtain ⟨e₂, s₂, hr₂, ha₂, hx₂⟩ :=
    (readAt_fit (s := { s₁ with ahead := s.ahead }) hr (by omega) hb).yields (by omega) hs
  refine ⟨.binary t.pos op e₁ e₂, { s₂ with req := s₂.req.require op }, ha₂, ?_, fun y s₃ hy => ?_⟩
  · have hx₁ := e₁.term?_of_prefix (prefix_localNames hr₂) hx₁
    change (do return Term.binary op (← e₁.term? (localNames s₂)) (← e₂.term? (localNames s₂))) = _
    rw [hx₁, hx₂]
    rfl
  · rw [State.pushAll_append]
    refine hc y s₃ ?_
    rw [State.eq_pushAll (w := t :: b) ha₁]
    exact .chain isOp hr₂ hy

private theorem readable_assign (hl : Readable l) (hr : Readable r) : Readable (.assign l r) := by
  intro w s hw
  obtain ⟨a, b, rfl, ha, hb⟩ := List.map_eq_append_iff.mp hw
  obtain ⟨t, b, rfl, ht, hb⟩ := List.map_eq_cons_iff.mp hb
  have eq : t.is (ascii "=") := is_of_erase ht
  change levels + 1 < nextSlack s → Yields .assign _ _ _
  intro hs
  have hn : nextSlack ((s.pushAll b).push t) = levels + 1 := nextSlack_push eq
  obtain ⟨e₁, s₁, hr₁, ha₁, hx₁⟩ :=
    (readAt_fit (s := (s.pushAll b).push t) hl (by omega) ha).yields (by omega) (by omega)
  obtain ⟨e₂, s₂, hr₂, ha₂, hx₂⟩ :=
    (readAt_fit (s := { s₁ with ahead := s.ahead }) hr (by omega) hb).yields (by omega)
      (Nat.lt_of_succ_lt hs)
  rw [State.eq_push ha₁] at hr₁
  refine ⟨.assign t.pos e₁ e₂, { s₂ with locals := inferAssign s₂.locals s₁.fresh e₁ e₂ }, ?_, ha₂,
    ?_⟩
  · rw [State.pushAll_append]
    exact (Reads.assign hr₁ eq hr₂ :)
  · have hx₁ := e₁.term?_of_prefix (prefix_localNames hr₂) hx₁
    rw [localNames, map_name_inferAssign, ← localNames]
    change (do return Term.assign (← e₁.term? (localNames s₂)) (← e₂.term? (localNames s₂))) = _
    rw [hx₁, hx₂]
    rfl

/-- A term where nothing that follows can belong to it. -/
theorem yields_whole (h : Readable x) (hw : w.map Recast.erase.token = x.spell) {text : String}
    (hs : s.starts (ascii text)) (ht : levels + 1 < slack (ascii text)) : Yields .assign x w s :=
  ((h w s hw).mono x.level_le (Nat.le_refl _)).assign (by rwa [nextSlack_of_starts hs])

/-- Arguments are read one by one, up to the closing parenthesis. -/
theorem reads_spellAll {args : List Term} (h : ∀ x ∈ args, Readable x) (hne : args ≠ [])
    (hw : w.map Recast.erase.token = spellAll args) (hs : s.starts (ascii ")")) :
    ∃ es s₁, Reads .argumentList (s.pushAll w) es s₁ ∧ s₁.ahead = s.ahead ∧
      Expr.terms? (localNames s₁) es = some args := by
  induction args generalizing w s with
  | nil => exact absurd rfl hne
  | cons x xs ih =>
    rw [List.forall_mem_cons] at h
    cases xs with
    | nil =>
      obtain ⟨e, s₁, hr, ha, hx⟩ := yields_whole h.1 hw hs (by decide)
      have last : s₁.starts (ascii ",") = false := by
        refine starts_eq_false ?_
        rw [nextSlack_congr ha, nextSlack_of_starts hs]
        decide
      refine ⟨[e], s₁, .lastArgument hr last, ha, ?_⟩
      simp [Expr.terms?, hx]
    | cons y ys =>
      obtain ⟨a, b, rfl, ha, hb⟩ := List.map_eq_append_iff.mp hw
      obtain ⟨t, b, rfl, ht, hb⟩ := List.map_eq_cons_iff.mp hb
      have comma : t.is (ascii ",") := is_of_erase ht
      obtain ⟨e, s₁, hr, ha₁, hx⟩ :=
        yields_whole (s := (s.pushAll b).push t) h.1 ha comma (by decide)
      obtain ⟨es, s₂, hrs, ha₂, hxs⟩ :=
        ih (s := { s₁ with ahead := s.ahead }) h.2 (List.cons_ne_nil y ys) hb hs
      rw [State.eq_push ha₁] at hr
      rw [State.pushAll_append]
      refine ⟨e :: es, s₂, .moreArguments hr comma hrs, ha₂, ?_⟩
      have hx := e.term?_of_prefix (prefix_localNames hrs) hx
      simp [Expr.terms?, hx, hxs]

/-- An expression does not begin with a closing parenthesis. -/
theorem starts_eq_false_of_reads {s' : State} {es : List Expr} (h : Reads .argumentList s es s') :
    s.starts (ascii ")") = false := by
  obtain ⟨t, s, rfl, ht⟩ := (spans_of_reads h).exists_first rfl
  have ht : beginsExpr t := by
    simpa [phrase, argumentPhrase, Phrase.seqs, Phrase.first, Phrase.nullable, Rule.first] using ht
  exact is_eq_false_of_beginsExpr ht (by decide)

private theorem readable_call (name : Bytes) {args : List Term} (h : ∀ x ∈ args, Readable x) :
    Readable (.call name args) := by
  intro w s hw
  obtain ⟨t, w, rfl, ht, hw⟩ := List.map_eq_cons_iff.mp hw
  obtain ⟨t₁, w, rfl, ht₁, hw⟩ := List.map_eq_cons_iff.mp hw
  obtain ⟨a, b, rfl, ha, hb⟩ := List.map_eq_append_iff.mp hw
  obtain ⟨t₂, rfl, ht₂⟩ := List.map_eq_singleton_iff.mp hb
  have isName : t.kind = .ident := kind_of_erase ht
  have hl : t.lit = name := congrArg Token.lit ht
  have opens : t₁.is (ascii "(") := is_of_erase ht₁
  have closes : t₂.is (ascii ")") := is_of_erase ht₂
  obtain ⟨es, s₁, hr, ha, hx⟩ : ∃ es s₁,
      Reads .arguments (State.pushAll { s with fresh := none } (a ++ [t₂])) es s₁ ∧
        s₁.ahead = s.ahead ∧ Expr.terms? (localNames s₁) es = some args := by
    by_cases hne : args = []
    · subst hne
      have ha : a = [] := List.map_eq_nil_iff.mp ha
      subst ha
      exact ⟨[], { s with fresh := none }, .noArguments closes, rfl, rfl⟩
    · obtain ⟨es, s₁, hr, ha₁, hx⟩ :=
        reads_spellAll (s := State.push { s with fresh := none } t₂) h hne ha closes
      have more := starts_eq_false_of_reads hr
      rw [State.eq_push ha₁] at hr
      refine ⟨es, { s₁ with ahead := s.ahead }, ?_, rfl, hx⟩
      rw [State.pushAll_append]
      exact .arguments more hr closes
  have hc : Reads .primary (s.pushAll (t :: t₁ :: (a ++ [t₂]))) [.call t.pos t.lit es]
      { s₁ with fresh := none } := .call (s := s.pushAll (a ++ [t₂])) isName opens hr
  refine Yields.operand ⟨_, _, hc, ha, ?_⟩ (by simp [Rule.first, isName])
  change (Expr.terms? (localNames s₁) es).map (Term.call t.lit) = _
  rw [hx, hl, Option.map_some]

end Terms

mutual

/-- Whatever the term, its tokens are read as it. -/
theorem readable_of_legal (x : Term) (h : x.legal) : Readable x := by
  match x with
  | .num n => exact readable_num n
  | .var name => exact readable_var (by simpa [Term.legal] using h)
  | .neg x =>
    exact readable_unary (readable_of_legal x h) rfl rfl (by decide) (fun t => unary?_neg)
      fun _ _ _ => rfl
  | .addr x =>
    exact readable_unary (readable_of_legal x h) rfl rfl (by decide) (fun t => unary?_addr)
      fun _ _ _ => rfl
  | .deref x =>
    exact readable_unary (readable_of_legal x h) rfl rfl (by decide) (fun t => unary?_deref)
      fun _ _ _ => rfl
  | .binary op l r =>
    simp only [Term.legal, Bool.and_eq_true, List.contains_iff_mem] at h
    exact readable_binary h.1.1 (readable_of_legal l h.1.2) (readable_of_legal r h.2)
  | .assign l r =>
    simp only [Term.legal, Bool.and_eq_true] at h
    exact readable_assign (readable_of_legal l h.1) (readable_of_legal r h.2)
  | .call name args => exact readable_call name (readable_of_allLegal args h)

theorem readable_of_allLegal (xs : List Term) (h : allLegal xs) : ∀ x ∈ xs, Readable x := by
  match xs with
  | [] => exact List.forall_mem_nil _
  | x :: xs =>
    simp only [Term.allLegal, Bool.and_eq_true] at h
    rw [List.forall_mem_cons]
    exact ⟨readable_of_legal x h.1, readable_of_allLegal xs h.2⟩

end

/-- The tokens before the end mark. -/
theorem map_beforeEnd {w toks : List Token} (hw : ∀ t ∈ w, t.kind ≠ .eof)
    (h : toks.map Recast.erase.token = w ++ [.eof SourceError.noOffset]) :
    (Token.beforeEnd toks).map Recast.erase.token = w := by
  obtain ⟨v, u, rfl, hv, hu⟩ := List.map_eq_append_iff.mp h
  obtain ⟨t, rfl, ht⟩ := List.map_eq_singleton_iff.mp hu
  have hk : t.kind = .eof := kind_of_erase ht
  have hall : ∀ t ∈ v, (t.kind != .eof) = true := by
    intro t hm
    have ht : (Recast.erase.token t).kind ≠ .eof := hw _ (hv ▸ List.mem_map_of_mem hm)
    simpa [Recast.token] using ht
  rw [Token.beforeEnd, List.takeWhile_append_of_pos hall]
  simp [hk, hv]

/-- The rest of a block that returns a term. -/
theorem readsStmt_return {x : Term} (hx : Readable x) {w : List Token}
    (hw : w.map Recast.erase.token = x.spell) {s : State} {ret semicolon brace : Token}
    (isReturn : ret.is (ascii "return")) (ends : semicolon.is (ascii ";"))
    (closes : brace.is (ascii "\x7d")) :
    ∃ e s₁, ReadsStmt .block ((((s.push brace).push semicolon).pushAll w).push ret)
        [.ret ret.pos e] s₁ ∧
      s₁.ahead = s.ahead ∧ e.term? (localNames s₁) = some x := by
  obtain ⟨e, s₁, hr, ha, he⟩ :=
    yields_whole (s := (s.push brace).push semicolon) hx hw ends (by decide)
  rw [State.eq_push ha] at hr
  have notEnd : ret.is (ascii "\x7d") = false := Token.is_eq_false_of_is isReturn (by decide)
  have noInt : ret.is (ascii "int") = false := Token.is_eq_false_of_is isReturn (by decide)
  have rest : ReadsStmt .block (State.push { s₁ with ahead := s.ahead } brace) [] _ :=
    .endBlock closes
  exact ⟨e, _, .item notEnd noInt (.ret isReturn hr ends) rest, rfl, he⟩

/-- A block that returns a term is parsed, whatever its offsets, as one that returns that term. -/
theorem exists_parse_block {x : Term} (hx : x.legal) {toks : List Token}
    (ht : toks.map Recast.erase.token = x.block ++ [.eof SourceError.noOffset])
    (req : Requirements) :
    ∃ p f brace pos e, parse toks req = .ok p ∧ p.topLevel = true ∧ p.funcs = [f] ∧
      f.body = some ⟨brace, [.ret pos e]⟩ ∧ e.term? (f.locals.map Local.name) = some x := by
  obtain ⟨t, v, hv, ht, h⟩ := List.map_eq_cons_iff.mp (map_beforeEnd x.kind_of_mem_block ht)
  obtain ⟨t₁, v, rfl, ht₁, h⟩ := List.map_eq_cons_iff.mp h
  obtain ⟨w, v, rfl, hw, h⟩ := List.map_eq_append_iff.mp h
  obtain ⟨t₂, v, rfl, ht₂, h⟩ := List.map_eq_cons_iff.mp h
  obtain ⟨t₃, rfl, ht₃⟩ := List.map_eq_singleton_iff.mp h
  have isReturn : t₁.is (ascii "return") := by
    rw [← Recast.erase.token_is, ht₁]
    rfl
  obtain ⟨s, hs, hend⟩ : ∃ s : State,
      initial toks req = ((((s.push t₃).push t₂).pushAll w).push t₁).push t ∧ s.ahead = [] :=
    ⟨{ initial toks req with ahead := [] }, by simp [initial, hv, State.push, State.pushAll], rfl⟩
  obtain ⟨e, s₁, inner, ha, he⟩ :=
    readsStmt_return (readable_of_legal x hx) hw isReturn (is_of_erase ht₂) (is_of_erase ht₃)
  have hp := ReadsProgram.topLevel (is_of_erase ht) inner (ha.trans hend)
  rw [← hs, ← parse_eq_ok_iff] at hp
  exact ⟨_, _, t.pos, t₁.pos, e, hp, rfl, rfl, rfl, he⟩

/-- A store of a comparison whose left side nests to the right. -/
def storedComparison : Term :=
  .assign (.deref (.var (ascii "p")))
    (.binary .ne
      (.binary .sub (.var (ascii "a"))
        (.binary .sub (.var (ascii "b")) (.num 2147483647)))
      (.neg (.call (ascii "f") [.assign (.var (ascii "a")) (.num 1), .var (ascii "a")])))

theorem exists_parse_storedComparison :
    storedComparison.legal = true ∧ ∃ toks,
      Token.scan (ascii "\x7breturn *p=a-(b-2147483647)!=-f(a=1,a);\x7d") = .ok toks ∧
      toks.map Recast.erase.token = storedComparison.block ++ [.eof SourceError.noOffset] ∧
      ∃ p f brace pos e, parse toks {} = .ok p ∧ p.topLevel = true ∧ p.funcs = [f] ∧
        f.body = some ⟨brace, [.ret pos e]⟩ ∧
        e.term? (f.locals.map Local.name) = some storedComparison := by
  have hlegal : storedComparison.legal = true := by decide
  have hscan : (Token.scan (ascii "\x7breturn *p=a-(b-2147483647)!=-f(a=1,a);\x7d")).map
      (List.map Recast.erase.token) =
      .ok (storedComparison.block ++ [.eof SourceError.noOffset]) := by
    decide +kernel
  obtain ⟨toks, hs, ht⟩ := Outcome.map_eq_ok.mp hscan
  exact ⟨hlegal, toks, hs, ht, exists_parse_block hlegal ht {}⟩

end StackC.Grammar
