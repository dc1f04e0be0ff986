import StackC.Proofs.Reading.TurnedExpr

/-! Statements and programs in which comparisons are turned around are read as the same statements
and programs, up to the numbers of the variables. -/
namespace StackC.Derivation
open Grammar

/-- The states have locals of the same names, in any order, and the same flags. -/
structure Peers (s s' : State) : Prop where
  names : ∀ name, name ∈ localNames s ↔ name ∈ localNames s'
  nodup : (scratchName :: localNames s).Nodup
  req : s.req = s'.req

/-- From one state to the next and from a peer to the next, locals are added on both sides and lead
to peers again, with the same tokens ahead, turned around. -/
structure Follows (s s₁ s' s₁' : State) : Prop where
  tokens : Turned s₁.ahead s₁'.ahead
  peers : Peers s₁ s₁'
  kept : localNames s <+: localNames s₁ ∧ localNames s' <+: localNames s₁'

private theorem eq_of_needs {r r' : Requirements} (h : ∀ op, r.needs op ↔ r'.needs op) :
    r = r' := by
  have hl : r.lt = r'.lt := Bool.eq_iff_iff.mpr (h .lt)
  have he : r.le = r'.le := Bool.eq_iff_iff.mpr (h .le)
  have hn : r.ne = r'.ne := Bool.eq_iff_iff.mpr (h .ne)
  cases r
  cases r'
  simp_all

namespace Follows

variable {s s₁ s₂ s' s₁' s₂' : State}

theorem refl (hp : Peers s s') (ht : Turned s.ahead s'.ahead) : Follows s s s' s' :=
  ⟨ht, hp, List.prefix_rfl, List.prefix_rfl⟩

theorem trans (h : Follows s s₁ s' s₁') (h' : Follows s₁ s₂ s₁' s₂') : Follows s s₂ s' s₂' :=
  ⟨h'.tokens, h'.peers, h.kept.1.trans h'.kept.1, h.kept.2.trans h'.kept.2⟩

theorem ofPush {t t' : Token} (h : Follows s s₁ s' s₁') : Follows (s.push t) s₁ (s'.push t') s₁' :=
  ⟨h.tokens, h.peers, h.kept⟩

theorem next {t : Token} (h : Follows s (s₁.push t) s' s₂') (ht : t.is (ascii "(") = false) :
    ∃ pos s₁', s₂' = State.push s₁' { t with pos } ∧ Follows s s₁ s' s₁' := by
  obtain ⟨pos, s₁', rfl, hr⟩ := Turned.next h.tokens ht
  exact ⟨pos, s₁', rfl, hr, ⟨h.peers.names, h.peers.nodup, h.peers.req⟩, h.kept⟩

/-- Variables that were the same still are. -/
theorem named (h : Follows s s₁ s' s₁') (i i' : Int) (hi : Named s.locals s'.locals i i') :
    Named s₁.locals s₁'.locals i i' :=
  hi.mono h.kept.1 h.kept.2

theorem of_keeps {f : Form} {xs xs' : List Expr} (hp : Peers s s') (h : Reads f s xs s₁)
    (hx : Keeps s s₁ s' s₁' xs xs') : Follows s s₁ s' s₁' := by
  obtain ⟨N, F, hg, hg'⟩ := hx.gains
  refine ⟨hx.tokens, ⟨fun name => ?_, nodup_of_reads h hp.nodup, ?_⟩, hg.kept, hg'.kept⟩
  · rw [hg.names, hg'.names, hp.names]
  · refine eq_of_needs fun op => ?_
    rw [hg.flags, hg'.flags, hp.req]

end Follows

section Parts

variable {s s₁ s' : State} {t : Token} {x : Expr}

theorem carries_value (hp : Peers s s') (ht : Turned s.ahead s'.ahead)
    (h : Reads .assign s [x] s₁) :
    ∃ x' s₁', Reads .assign s' [x'] s₁' ∧ Follows s s₁ s' s₁' ∧
      x.Matches (Named s₁.locals s₁'.locals) x' := by
  have hk : Kin s.ahead.length s s' := ⟨ht, hp.nodup, Nat.le_refl _⟩
  obtain ⟨x', s₁', hr, hx⟩ := (carries s.ahead.length h).single hk rfl
  exact ⟨x', s₁', hr, .of_keeps hp h hx, hx.expr⟩

/-- An expression and the token behind it. -/
theorem carries_upTo (hp : Peers s s') (ht : Turned s.ahead s'.ahead)
    (h : Reads .assign s [x] (s₁.push t)) (hn : t.is (ascii "(") = false) :
    ∃ x' s₁' pos, Reads .assign s' [x'] (State.push s₁' { t with pos }) ∧ Follows s s₁ s' s₁' ∧
      x.Matches (Named s₁.locals s₁'.locals) x' := by
  obtain ⟨x', s₂', hr, hf, hx⟩ := carries_value hp ht h
  obtain ⟨pos, s₁', rfl, hf₁⟩ := hf.next hn
  exact ⟨x', s₁', pos, hr, hf₁, hx⟩

/-- An expression in parentheses, which may be a comparison that is turned around. -/
theorem carries_test {t₁ : Token} (hp : Peers (s.push t) s') (ht : Turned (s.push t).ahead s'.ahead)
    (h : Reads .assign s [x] (s₁.push t₁)) (hc : t₁.is (ascii ")")) :
    ∃ x' s₀' s₁' pos pos', s' = State.push s₀' { t with pos } ∧
      Reads .assign s₀' [x'] (State.push s₁' { t₁ with pos := pos' }) ∧ Follows s s₁ s₀' s₁' ∧
      x.Matches (Named s₁.locals s₁'.locals) x' := by
  obtain ⟨pos, s₀', rfl, hf⟩ := Turned.exists_push ht
  have hp : Peers s s₀' := ⟨hp.names, hp.nodup, hp.req⟩
  have hn := Token.is_eq_false_of_is hc (b := ascii "(") (by decide)
  rcases hf with hf | ⟨-, hf⟩
  · obtain ⟨x', s₁', pos', h'⟩ := carries_upTo hp hf h hn
    exact ⟨x', s₀', s₁', pos, pos', rfl, h'⟩
  · obtain ⟨-, x', s₂', hr, hx⟩ := carries_group (fun _ _ _ _ => carries s.ahead.length) s s₀'
      (Nat.le_refl _) hp.nodup hf h
    obtain ⟨pos', s₁', rfl, hf₁⟩ := (Follows.of_keeps hp h hx).next hn
    exact ⟨x', s₀', s₁', pos, pos', rfl, hr, hf₁, hx.expr⟩

theorem carries_optional {close : Bytes} (hc : close ≠ ascii "(") (hp : Peers s s')
    (ht : Turned s.ahead s'.ahead) (h : ReadsOptional close s x s₁) :
    ∃ x' s₁', ReadsOptional close s' x' s₁' ∧ Follows s s₁ s' s₁' ∧
      x.Matches (Named s₁.locals s₁'.locals) x' := by
  cases h with
  | absent closes =>
    obtain ⟨pos, s₁', rfl, hf⟩ := (Follows.refl hp ht).next (Token.is_eq_false_of_is closes hc)
    exact ⟨_, _, .absent closes, hf, .absent⟩
  | present notYet inner closes =>
    obtain ⟨x', s₁', pos, hr, hf, hx⟩ :=
      carries_upTo hp ht inner (Token.is_eq_false_of_is closes hc)
    exact ⟨_, _, .present ((ht.starts _).symm.trans notYet) hr closes, hf, hx⟩

/-- No comparison that is turned around stands where a loop begins, since a parenthesis closes
it. -/
theorem not_facing_of_readsFirst {first : Stmt} (hp : Peers s s') (h : ReadsFirst s first s₁) :
    ¬ Facing s.ahead s'.ahead := by
  intro hf
  cases h with
  | absent ends =>
    rw [is_eq_false_of_beginsExpr hf.beginsExpr (by decide)] at ends
    cases ends
  | present notYet inner ends =>
    obtain ⟨hc, -⟩ := carries_group (fun _ _ _ _ => carries s.ahead.length) s s' (Nat.le_refl _)
      hp.nodup hf inner
    rw [State.starts_push, Token.is_eq_false_of_is ends (by decide)] at hc
    cases hc

private theorem carries_first {first : Stmt} (hp : Peers s s') (ht : Turned s.ahead s'.ahead)
    (h : ReadsFirst s first s₁) :
    ∃ first' s₁', ReadsFirst s' first' s₁' ∧ Follows s s₁ s' s₁' ∧
      first.Matches (Named s₁.locals s₁'.locals) first' := by
  cases h with
  | absent ends =>
    obtain ⟨pos, s₁', rfl, hf⟩ :=
      (Follows.refl hp ht).next (Token.is_eq_false_of_is ends (by decide))
    exact ⟨_, _, .absent ends, hf, .absent⟩
  | present notYet inner ends =>
    obtain ⟨x', s₁', pos, hr, hf, hx⟩ :=
      carries_upTo hp ht inner (Token.is_eq_false_of_is ends (by decide))
    exact ⟨_, _, .present ((ht.starts _).symm.trans notYet) hr ends, hf, .expr hx⟩

end Parts

section Declarations

variable {s s₁ s' : State}

theorem Turned.exists_stars {stars : List Token} (hs : ∀ t ∈ stars, t.is (ascii "*"))
    (h : Turned (s.pushAll stars).ahead s'.ahead) :
    ∃ stars' s₁', s' = State.pushAll s₁' stars' ∧ (∀ t ∈ stars', t.is (ascii "*")) ∧
      stars'.length = stars.length ∧ Turned s.ahead s₁'.ahead := by
  induction stars generalizing s' with
  | nil => exact ⟨[], s', rfl, by simp, rfl, h⟩
  | cons t stars ih =>
    rw [List.forall_mem_cons] at hs
    obtain ⟨pos, s', rfl, h₁⟩ := Turned.next (s := s.pushAll stars) h
      (Token.is_eq_false_of_is hs.1 (by decide))
    obtain ⟨stars', s₁', rfl, hs', hl, h₁⟩ := ih hs.2 h₁
    refine ⟨{ t with pos } :: stars', s₁', rfl, ?_, by simp [hl], h₁⟩
    rw [List.forall_mem_cons]
    exact ⟨hs.1, hs'⟩

/-- The same name is declared on both sides. -/
theorem Peers.declared {name : Token} (hp : Peers s s') (isName : name.kind = .ident)
    (isNew : findLocal? s.locals name.lit = none) (notScratch : name.lit ≠ scratchName)
    (type : Ty) (pos : Int) :
    findLocal? s'.locals name.lit = none ∧
      Peers { s with locals := declare s.locals name.lit type name.pos }
        { s' with locals := declare s'.locals name.lit type pos } := by
  refine ⟨?_, fun x => ?_, (spans_declared isName isNew notScratch).nodup hp.nodup, hp.req⟩
  · rw [findLocal?_eq_none] at isNew ⊢
    exact fun hm => isNew ((hp.names _).mpr hm)
  · have hx := hp.names x
    simp only [localNames, declare, List.map_append, List.mem_append] at hx ⊢
    exact or_congr_left hx

theorem map_name_declare (locals : List Local) (name : Bytes) (type : Ty) (pos : Int) :
    (declare locals name type pos).map Local.name = locals.map Local.name ++ [name] := by
  simp [declare]

/-- The local that is declared has its name. -/
theorem name_of_declare (locals : List Local) (name : Bytes) (type : Ty) (pos : Int) :
    (getLocal? (declare locals name type pos) locals.length).map Local.name = some name := by
  rw [map_name_getLocal?, map_name_declare]
  simp

theorem carries_declarator {inits : List Stmt} (hp : Peers s s') (ht : Turned s.ahead s'.ahead)
    (h : ReadsDeclarator s inits s₁) :
    ∃ inits' s₁', ReadsDeclarator s' inits' s₁' ∧ Follows s s₁ s' s₁' ∧
      List.Forall₂ (Stmt.Matches (Named s₁.locals s₁'.locals)) inits inits' := by
  have kept (s : State) (name : Bytes) (type : Ty) (pos : Int) :
      localNames s <+: localNames { s with locals := declare s.locals name type pos } :=
    ⟨[name], (map_name_declare s.locals name type pos).symm⟩
  cases h with
  | @bare s stars name areStars isName isNew notScratch noValue =>
    obtain ⟨stars', s', rfl, areStars', hl, ht₁⟩ := Turned.exists_stars areStars ht
    obtain ⟨pos, s', rfl, ht₂⟩ := Turned.next ht₁ (Token.is_eq_false_of_ident isName _)
    have hp : Peers s s' := ⟨hp.names, hp.nodup, hp.req⟩
    obtain ⟨isNew', hp₁⟩ := hp.declared isName isNew notScratch (.stars stars'.length) pos
    exact ⟨_, _, .bare areStars' isName isNew' notScratch ((ht₂.starts _).symm.trans noValue),
      ⟨ht₂, hl ▸ hp₁, kept s _ _ _, kept s' _ _ _⟩, .nil⟩
  | @init s s₁ stars name t x areStars isName isNew notScratch eq value =>
    obtain ⟨stars', s', rfl, areStars', hl, ht₁⟩ := Turned.exists_stars areStars ht
    obtain ⟨pos, s', rfl, ht₂⟩ := Turned.next ht₁ (Token.is_eq_false_of_ident isName _)
    obtain ⟨pos', s', rfl, ht₃⟩ := Turned.next ht₂ (Token.is_eq_false_of_is eq (by decide))
    have hp : Peers s s' := ⟨hp.names, hp.nodup, hp.req⟩
    obtain ⟨isNew', hp₁⟩ := hp.declared isName isNew notScratch (.stars stars.length) pos
    rw [← hl] at value hp₁
    obtain ⟨x', s₁', hr, hf, hx⟩ := carries_value hp₁ ht₃ value
    have hv := hf.named (s.locals.length : Int) (s'.locals.length : Int)
      ⟨name.lit, name_of_declare _ _ _ _, name_of_declare _ _ _ _⟩
    exact ⟨_, _, .init areStars' isName isNew' notScratch eq hr,
      ⟨hf.tokens, hf.peers, (kept s _ _ _).trans hf.kept.1, (kept s' _ _ _).trans hf.kept.2⟩,
      .cons (.expr (.assign (.var hv) hx)) .nil⟩

private theorem carries_declarators {inits : List Stmt} (h : ReadsDeclarators s inits s₁)
    (hp : Peers s s') (ht : Turned s.ahead s'.ahead) :
    ∃ inits' s₁', ReadsDeclarators s' inits' s₁' ∧ Follows s s₁ s' s₁' ∧
      List.Forall₂ (Stmt.Matches (Named s₁.locals s₁'.locals)) inits inits' := by
  induction h generalizing s' with
  | last only ends =>
    obtain ⟨inits', s₂', hr, hf, hx⟩ := carries_declarator hp ht only
    obtain ⟨pos, s₁', rfl, hf₁⟩ := hf.next (Token.is_eq_false_of_is ends (by decide))
    exact ⟨_, _, .last hr ends, hf₁, hx⟩
  | more first comma rest ih =>
    obtain ⟨inits', s₂', hr, hf, hx⟩ := carries_declarator hp ht first
    obtain ⟨pos, s₁', rfl, hf₁⟩ := hf.next (Token.is_eq_false_of_is comma (by decide))
    obtain ⟨others', s₂', hr', hf₂, hy⟩ := ih hf₁.peers hf₁.tokens
    exact ⟨_, _, .more hr comma hr', hf₁.trans hf₂,
      List.rel_append (Stmt.Matches.monoAll hx hf₂.named) hy⟩

end Declarations

theorem exists_of_forall₂ {α : Type} {R : α → α → Prop} {x : α} {ys : List α}
    (h : List.Forall₂ R [x] ys) : ∃ y, ys = [y] ∧ R x y := by
  cases h with
  | cons hx hn =>
    cases hn
    exact ⟨_, rfl, hx⟩

/-- Statements with comparisons turned around are read as the same statements. -/
theorem carries_stmt {f : StmtForm} {s s₁ s' : State} {xs : List Stmt} (h : ReadsStmt f s xs s₁)
    (hp : Peers s s') (ht : Turned s.ahead s'.ahead) :
    ∃ xs' s₁', ReadsStmt f s' xs' s₁' ∧ Follows s s₁ s' s₁' ∧
      List.Forall₂ (Stmt.Matches (Named s₁.locals s₁'.locals)) xs xs' := by
  induction h generalizing s' with
  | @ret s s₁ t t₁ x isReturn value ends =>
    obtain ⟨pos, s', rfl, hf⟩ :=
      (Follows.refl hp ht).next (Token.is_eq_false_of_is isReturn (by decide))
    obtain ⟨x', s₁', pos', hr, hf₁, hx⟩ :=
      carries_upTo hf.peers hf.tokens value (Token.is_eq_false_of_is ends (by decide))
    exact ⟨_, _, .ret isReturn hr ends, hf.trans hf₁, .cons (.ret hx) .nil⟩
  | @cond s s₁ s₂ s₃ t t₁ t₂ x yes no isIf opens test closes first second ih₁ ih₂ =>
    obtain ⟨pos, s', rfl, hf⟩ :=
      (Follows.refl hp ht).next (Token.is_eq_false_of_is isIf (by decide))
    obtain ⟨x', s', s₁', pos', pos₂, rfl, hr, hf₁, hx⟩ :=
      carries_test hf.peers hf.tokens test closes
    obtain ⟨ys, s₂', hr₁, hf₂, hy⟩ := ih₁ hf₁.peers hf₁.tokens
    obtain ⟨zs, s₃', hr₂, hf₃, hz⟩ := ih₂ hf₂.peers hf₂.tokens
    obtain ⟨yes', rfl, hyes⟩ := exists_of_forall₂ hy
    obtain ⟨no', rfl, hno⟩ := exists_of_forall₂ hz
    have hx' := hx.mono (hf₂.trans hf₃).named
    exact ⟨_, _, .cond isIf opens hr closes hr₁ hr₂, ((hf₁.trans hf₂).trans hf₃).ofPush.ofPush,
      .cons (.cond hx' (hyes.mono hf₃.named) hno) .nil⟩
  | @loop s s₁ s₂ s₃ s₄ t t₁ first body test step isFor opens init cond inc inner ih =>
    obtain ⟨pos, s', rfl, hf⟩ :=
      (Follows.refl hp ht).next (Token.is_eq_false_of_is isFor (by decide))
    obtain ⟨pos', s', rfl, hc⟩ := Turned.exists_push hf.tokens
    have hp : Peers s s' := ⟨hp.names, hp.nodup, hp.req⟩
    -- Only what a pair of parentheses holds can be turned around, and semicolons stand in these.
    have hc := hc.resolve_right fun hc => not_facing_of_readsFirst hp init hc.2
    obtain ⟨first', s₁', hr, hf₁, hx⟩ := carries_first hp hc init
    obtain ⟨test', s₂', hr₁, hf₂, hy⟩ := carries_optional (by decide) hf₁.peers hf₁.tokens cond
    obtain ⟨step', s₃', hr₂, hf₃, hz⟩ := carries_optional (by decide) hf₂.peers hf₂.tokens inc
    obtain ⟨bs, s₄', hr₃, hf₄, hb⟩ := ih hf₃.peers hf₃.tokens
    obtain ⟨body', rfl, hbody⟩ := exists_of_forall₂ hb
    have hf₂₄ := hf₃.trans hf₄
    exact ⟨_, _, .loop isFor opens hr hr₁ hr₂ hr₃, (hf₁.trans (hf₂.trans hf₂₄)).ofPush.ofPush,
      .cons (.loop (hx.mono (hf₂.trans hf₂₄).named) (hy.mono hf₂₄.named) (hz.mono hf₄.named)
        hbody) .nil⟩
  | @whileLoop s s₁ s₂ t t₁ t₂ x body isWhile opens test closes inner ih =>
    obtain ⟨pos, s', rfl, hf⟩ :=
      (Follows.refl hp ht).next (Token.is_eq_false_of_is isWhile (by decide))
    obtain ⟨x', s', s₁', pos', pos₂, rfl, hr, hf₁, hx⟩ :=
      carries_test hf.peers hf.tokens test closes
    obtain ⟨bs, s₂', hr₁, hf₂, hb⟩ := ih hf₁.peers hf₁.tokens
    obtain ⟨body', rfl, hbody⟩ := exists_of_forall₂ hb
    exact ⟨_, _, .whileLoop isWhile opens hr closes hr₁, (hf₁.trans hf₂).ofPush.ofPush,
      .cons (.loop .absent (hx.mono hf₂.named) .absent hbody) .nil⟩
  | @nested s s₁ t body opens inner ih =>
    obtain ⟨pos, s', rfl, hf⟩ :=
      (Follows.refl hp ht).next (Token.is_eq_false_of_is opens (by decide))
    obtain ⟨body', s₁', hr, hf₁, hb⟩ := ih hf.peers hf.tokens
    exact ⟨_, _, .nested opens hr, hf.trans hf₁, .cons (.block hb) .nil⟩
  | @empty s t ends =>
    obtain ⟨pos, s', rfl, hf⟩ :=
      (Follows.refl hp ht).next (Token.is_eq_false_of_is ends (by decide))
    exact ⟨_, _, .empty ends, hf, .cons (.block .nil) .nil⟩
  | @expr s s₁ t x plain inner ends =>
    obtain ⟨x', s₁', pos, hr, hf, hx⟩ :=
      carries_upTo hp ht inner (Token.is_eq_false_of_is ends (by decide))
    exact ⟨_, _, .expr (fun lit hl => (ht.starts lit).symm.trans (plain lit hl)) hr ends, hf,
      .cons (.expr hx) .nil⟩
  | @noElse s noElse =>
    exact ⟨_, _, .noElse ((ht.starts _).symm.trans noElse), .refl hp ht, .cons .absent .nil⟩
  | @orElse s s₁ t x isElse inner ih =>
    obtain ⟨pos, s', rfl, hf⟩ :=
      (Follows.refl hp ht).next (Token.is_eq_false_of_is isElse (by decide))
    obtain ⟨xs', s₁', hr, hf₁, hx⟩ := ih hf.peers hf.tokens
    obtain ⟨x', rfl, hx'⟩ := exists_of_forall₂ hx
    exact ⟨_, _, .orElse isElse hr, hf.trans hf₁, hx⟩
  | @endBlock s t closes =>
    obtain ⟨pos, s', rfl, hf⟩ :=
      (Follows.refl hp ht).next (Token.is_eq_false_of_is closes (by decide))
    exact ⟨_, _, .endBlock closes, hf, .nil⟩
  | @declaration s s₁ s₂ t inits body isInt first rest ih =>
    obtain ⟨pos, s', rfl, hf⟩ :=
      (Follows.refl hp ht).next (Token.is_eq_false_of_is isInt (by decide))
    obtain ⟨inits', s₁', hr, hf₁, hx⟩ := carries_declarators first hf.peers hf.tokens
    obtain ⟨body', s₂', hr', hf₂, hb⟩ := ih hf₁.peers hf₁.tokens
    exact ⟨_, _, .declaration isInt hr hr', (hf.trans hf₁).trans hf₂,
      .cons (.block (Stmt.Matches.monoAll hx hf₂.named)) hb⟩
  | @item s s₁ s₂ x body notEnd noInt first rest ih₁ ih₂ =>
    obtain ⟨xs', s₁', hr, hf, hx⟩ := ih₁ hp ht
    obtain ⟨body', s₂', hr', hf₁, hb⟩ := ih₂ hf.peers hf.tokens
    obtain ⟨x', rfl, hx'⟩ := exists_of_forall₂ hx
    exact ⟨_, _, .item ((ht.starts _).symm.trans notEnd) ((ht.starts _).symm.trans noInt) hr hr',
      hf.trans hf₁, .cons (hx'.mono hf₁.named) hb⟩

theorem peers_nil {s s' : State} (hl : s.locals = []) (hl' : s'.locals = [])
    (hr : s.req = s'.req) : Peers s s' :=
  ⟨by simp [localNames, hl, hl'], by simp [localNames, hl], hr⟩

section Programs

variable {s s₁ s' : State}

private theorem carries_function {f : Function} (h : ReadsFunction s f s₁)
    (ht : Turned s.ahead s'.ahead) (hq : s.req = s'.req) :
    ∃ f' s₁', ReadsFunction s' f' s₁' ∧ Turned s₁.ahead s₁'.ahead ∧ s₁.req = s₁'.req ∧
      f.Matches f' := by
  cases h with
  | @intro s s₁ stars t name opening closing brace stmts isInt areStars isName opens closes begins
      inner =>
    obtain ⟨pos, s', rfl, ht₁⟩ := Turned.next ht (Token.is_eq_false_of_is isInt (by decide))
    obtain ⟨stars', s', rfl, areStars', -, ht₂⟩ := Turned.exists_stars areStars ht₁
    obtain ⟨pos₁, s', rfl, ht₃⟩ := Turned.next ht₂ (Token.is_eq_false_of_ident isName _)
    obtain ⟨pos₂, s', rfl, ht₄⟩ := Turned.exists_push ht₃
    have ht₄ := ht₄.resolve_right fun hf => by
      rw [is_eq_false_of_beginsExpr hf.2.beginsExpr (by decide)] at closes
      cases closes
    obtain ⟨pos₃, s', rfl, ht₅⟩ := Turned.next ht₄ (Token.is_eq_false_of_is closes (by decide))
    obtain ⟨pos₄, s', rfl, ht₆⟩ := Turned.next ht₅ (Token.is_eq_false_of_is begins (by decide))
    have hp : Peers { s with locals := [] } { s' with locals := [] } := peers_nil rfl rfl hq
    obtain ⟨stmts', s₁', hr, hf, hm⟩ := carries_stmt inner hp ht₆
    exact ⟨_, _, .intro isInt areStars' isName opens closes begins hr, hf.tokens, hf.peers.req,
      rfl, _, _, rfl, rfl, hm⟩

private theorem findFunction?_of_matches {known known' : List Function} {name : Bytes}
    (h : List.Forall₂ Function.Matches known known') (hn : findFunction? known name = none) :
    findFunction? known' name = none := by
  simp only [findFunction?, List.find?_eq_none] at hn ⊢
  induction h with
  | nil => exact hn
  | cons hf _ ih =>
    rw [List.forall_mem_cons] at hn ⊢
    exact ⟨hf.name ▸ hn.1, ih hn.2⟩

private theorem carries_functions {known known' : List Function} {p : Program}
    (h : ReadsFunctions known s p) (hk : List.Forall₂ Function.Matches known known')
    (ht : Turned s.ahead s'.ahead) (hq : s.req = s'.req) :
    ∃ p', ReadsFunctions known' s' p' ∧ p.Matches p' := by
  induction h generalizing known' s' with
  | @done known s ended =>
    have hl := ht.length_eq
    rw [ended, List.length_nil, eq_comm, List.length_eq_zero_iff] at hl
    exact ⟨_, .done hl, rfl, hk, hq⟩
  | @more known s s₁ f p first isNew rest ih =>
    obtain ⟨f', s₁', hr, ht₁, hq₁, hf⟩ := carries_function first ht hq
    obtain ⟨p', hr', hp⟩ := ih (List.rel_append hk (.cons hf .nil)) ht₁ hq₁
    exact ⟨p', .more hr (hf.name ▸ findFunction?_of_matches hk isNew) hr', hp⟩

/-- A program with comparisons turned around is read as the same program. -/
theorem carries_program {p : Program} (h : ReadsProgram s p) (hp : Peers s s')
    (ht : Turned s.ahead s'.ahead) : ∃ p', ReadsProgram s' p' ∧ p.Matches p' := by
  cases h with
  | @topLevel s s₁ t stmts opens inner ended =>
    obtain ⟨pos, s', rfl, hf⟩ :=
      (Follows.refl hp ht).next (Token.is_eq_false_of_is opens (by decide))
    obtain ⟨stmts', s₁', hr, hf₁, hm⟩ := carries_stmt inner hf.peers hf.tokens
    have hl := hf₁.tokens.length_eq
    rw [ended, List.length_nil, eq_comm, List.length_eq_zero_iff] at hl
    exact ⟨_, .topLevel opens hr hl, rfl, .cons ⟨rfl, _, _, rfl, rfl, hm⟩ .nil, hf₁.peers.req⟩
  | functions notBlock inner =>
    obtain ⟨p', hr, hm⟩ := carries_functions inner .nil ht hp.req
    exact ⟨p', .functions ((ht.starts _).symm.trans notBlock) hr, hm⟩

end Programs

/-- A token list with comparisons turned around is parsed as the same program. -/
theorem exists_parse_of_turned {toks toks' : List Token} {req : Requirements} {p : Program}
    (ht : Turned (Token.beforeEnd toks) (Token.beforeEnd toks')) (h : parse toks req = .ok p) :
    ∃ p', parse toks' req = .ok p' ∧ p.Matches p' := by
  have hp : Peers (initial toks req) (initial toks' req) := peers_nil rfl rfl rfl
  obtain ⟨p', hr, hm⟩ := carries_program (parse_eq_ok_iff.mp h) hp ht
  exact ⟨p', parse_eq_ok_iff.mpr hr, hm⟩

end StackC.Derivation
