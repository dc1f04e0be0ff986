import StackC.Proofs.Cursor.Program
import StackC.Proofs.Reading.Inference

/-! The types of the locals of a parsed function: those of its declarators, and those inferred where
a name is used first. -/
namespace StackC

section Declared

open Token (Mention)

variable {o ms : List Mention} {pos : Int}

private theorem declaredAt?_append (h : ∀ m ∈ o, m.token.pos ≠ pos) :
    declaredAt? (o ++ ms) pos = declaredAt? ms pos := by
  have hn : o.find? (·.token.pos == pos) = none := by
    rw [List.find?_eq_none]
    intro m hm
    simpa using h m hm
  rw [declaredAt?, declaredAt?, List.find?_append, hn, Option.none_or]

private theorem declaredAt?_eq_none (h : ∀ m ∈ ms, m.token.pos = pos → m.stars = none) :
    declaredAt? ms pos = none := by
  rw [declaredAt?, Option.bind_eq_none_iff]
  intro m hm
  exact h m (List.mem_of_find?_eq_some hm) (by simpa using List.find?_some hm)

end Declared

namespace Grammar
open Token (Mention Context mentionsFrom)

/-- The tokens ahead stand in order, and those of declarators are the declared ones. -/
structure Told (declared? : Int → Option Nat) (depth : Nat) (c : Context) (ahead : List Token) :
    Prop where
  increasing : ahead.Pairwise (·.pos < ·.pos)
  declared : ∀ t ∈ ahead, declared? t.pos = declaredAt? (mentionsFrom depth c ahead) t.pos

namespace Told

variable {declared? : Int → Option Nat} {depth : Nat} {a b c : Context} {o : List Mention}
variable {ahead ahead' : List Token}

theorem move (h : Told declared? depth a ahead) (hc : Covers a ahead o b ahead') :
    Told declared? depth b ahead' := by
  obtain ⟨w, rfl, hw⟩ := hc.within
  obtain ⟨-, hinc, hlt⟩ := List.pairwise_append.mp h.increasing
  refine ⟨hinc, fun t ht => ?_⟩
  rw [h.declared t (List.mem_append_right w ht), hc.mentions, declaredAt?_append]
  exact fun m hm => Int.ne_of_lt (hlt _ (hw (List.mem_map_of_mem hm)) t ht)

/-- What is read next covers its tokens. -/
theorem across {Q : List Mention → Prop} (h : Told declared? depth a ahead)
    (hc : ∃ o, Covers a ahead o b ahead' ∧ Q o) : Told declared? depth b ahead' := by
  obtain ⟨o, hc, -⟩ := hc
  exact h.move hc

/-- A block inside another one. -/
theorem enter {t : Token} (h : Told declared? depth .outside (t :: ahead))
    (ht : t.is (ascii "\x7b")) : Told declared? (depth + 1) .outside ahead := by
  refine ⟨(List.pairwise_cons.mp h.increasing).2, fun u hu => ?_⟩
  rw [h.declared u (List.mem_cons_of_mem t hu), Token.mentionsFrom_open ht]

/-- Names that are only used are not declared. -/
theorem plain {ts : List Token} (h : Told declared? depth a ahead)
    (hc : Covers a ahead (ts.map used) b ahead') : Plain declared? ahead ahead' := by
  obtain ⟨w, rfl, -⟩ := hc.within
  obtain ⟨-, -, hlt⟩ := List.pairwise_append.mp h.increasing
  refine ⟨h.increasing, fun t ht => (List.mem_append.mp ht).symm.imp_right fun htw => ?_⟩
  rw [h.declared t ht, hc.mentions]
  refine declaredAt?_eq_none fun m hm hp => ?_
  rcases List.mem_append.mp hm with hm | hm
  · obtain ⟨u, -, rfl⟩ := List.mem_map.mp hm
    rfl
  · have hm := (Token.sublist_mentionsFrom depth b ahead').subset (List.mem_map_of_mem hm)
    exact absurd hp (Int.ne_of_gt (hlt t htw _ hm))

end Told

section Reading

variable {declared? : Int → Option Nat} {depth : Nat} {ns : List Expr} {s s' : State} {x : Expr}

theorem typed_of_readsExpr {c : Context} (h : Reads .assign s [x] s') (hc : c.isCalm)
    (hd : Told declared? depth c s.ahead) (ht : Typed declared? ns s.ahead s.locals) :
    Typed declared? (x.nodes ++ ns) s'.ahead s'.locals := by
  obtain ⟨ts, hcovers, -⟩ := exists_covers_of_reads h
  rw [← Expr.allNodes_singleton]
  exact typed_of_reads h ns (hd.plain (hcovers c hc)) ht

/-- A declarator fixes the type of its name. -/
theorem typed_of_name {stars rest : List Token} {name : Token} {locals : List Local}
    (hs : ∀ t ∈ stars, t.is (ascii "*")) (hn : name.kind = .ident)
    (hd : Told declared? depth (.declarator 0) (stars ++ name :: rest))
    (ht : Typed declared? ns (stars ++ name :: rest) locals) :
    declared? name.pos = some stars.length ∧ (∀ u ∈ rest, name.pos < u.pos) ∧
      Told declared? depth (.value 0) rest ∧
      Typed declared? ns rest (declare locals name.lit (.stars stars.length) name.pos) := by
  have hc : Covers (.declarator 0) (stars ++ name :: rest) [⟨name, some (0 + stars.length)⟩]
      (.value 0) rest := .declared hs hn 0
  have hdecl : declared? name.pos = some stars.length := by
    rw [hd.declared name (by simp), hc.mentions]
    simp [declaredAt?]
  have hlt := (List.pairwise_cons.mp (List.pairwise_append.mp hd.increasing).2.1).1
  have hlast := ht.drop (List.subset_append_right stars (name :: rest))
  exact ⟨hdecl, hlt, hd.move hc, hlast.declare hlt (.inl ⟨_, hdecl, rfl⟩)⟩

theorem typed_of_readsDeclarator {inits : List Stmt} (h : ReadsDeclarator s inits s')
    (hd : Told declared? depth (.declarator 0) s.ahead)
    (ht : Typed declared? ns s.ahead s.locals) :
    Typed declared? (Stmt.allNodes inits ++ ns) s'.ahead s'.locals := by
  cases h with
  | @bare s stars name areStars isName isNew notScratch noValue =>
    exact (typed_of_name areStars isName hd ht).2.2.2
  | @init s _ stars name t x areStars isName isNew notScratch eq value =>
    obtain ⟨hdecl, hlt, htold, hnew⟩ := typed_of_name areStars isName hd ht
    have hq := Token.quiet_of_is eq (by decide)
    have hvar := hnew.var (i := s.locals.length) (v := ⟨name.lit, .stars stars.length, name.pos⟩)
      hlt (by simp [getLocal?, declare, State.pushAll]) (.inl rfl)
    have hvalue := typed_of_readsExpr value rfl
      (htold.move (.move eq (by decide) (hq.next rfl))) hvar.tail
    have hafter : ∀ u ∈ s'.ahead, t.pos < u.pos := fun u hu =>
      (List.pairwise_cons.mp htold.increasing).1 u ((grows_of_reads value).1.subset hu)
    have hall : Typed declared? (.assign t.pos (.var name.pos s.locals.length) x ::
        (x.nodes ++ .var name.pos s.locals.length :: ns)) s'.ahead s'.locals := by
      refine hvalue.node (fun v _ hv => ⟨by simp, fun q i r he => ?_⟩) rfl ?_ ?_
      · rw [Expr.assign.injEq, Expr.var.injEq] at he
        rw [← he.2.1.1, hdecl] at hv
        cases hv
      · rintro _ ⟨⟩
        exact hafter
      · simp [Expr.nodes]
    refine hall.congr fun e => ?_
    simp [Stmt.allNodes_singleton, Stmt.nodes, Expr.nodes, or_left_comm]

private theorem typed_of_readsDeclarators {inits : List Stmt} (h : ReadsDeclarators s inits s')
    (hd : Told declared? depth (.declarator 0) s.ahead)
    (ht : Typed declared? ns s.ahead s.locals) :
    Typed declared? (Stmt.allNodes inits ++ ns) s'.ahead s'.locals := by
  induction h generalizing ns with
  | last only ends => exact (typed_of_readsDeclarator only hd ht).tail
  | more first comma rest ih =>
    have hnext := (hd.across (exists_covers_of_readsDeclarator first)).move (.comma comma)
    have hall := ih hnext (typed_of_readsDeclarator first hd ht).tail
    refine hall.congr fun e => ?_
    simp only [Stmt.allNodes_append, List.mem_append, or_assoc, or_left_comm]

theorem typed_of_readsOptional {close : Bytes} (h : ReadsOptional close s x s')
    (hd : Told declared? depth .outside s.ahead) (ht : Typed declared? ns s.ahead s.locals) :
    Typed declared? (x.nodes ++ ns) s'.ahead s'.locals := by
  cases h with
  | absent closes => exact ht.tail
  | present notYet inner closes => exact (typed_of_readsExpr inner rfl hd ht).tail

private theorem typed_of_readsFirst {first : Stmt} (h : ReadsFirst s first s')
    (hd : Told declared? depth .outside s.ahead) (ht : Typed declared? ns s.ahead s.locals) :
    Typed declared? (first.nodes ++ ns) s'.ahead s'.locals := by
  cases h with
  | absent ends => exact ht.tail
  | present notYet inner ends => exact (typed_of_readsExpr inner rfl hd ht).tail

/-- Statements leave their locals with the types that their nodes and declarators give them. -/
theorem typed_of_readsStmt {f : StmtForm} {xs : List Stmt} (h : ReadsStmt f s xs s')
    (hd : Told declared? depth .outside s.ahead) (ht : Typed declared? ns s.ahead s.locals) :
    Typed declared? (Stmt.allNodes xs ++ ns) s'.ahead s'.locals := by
  induction h generalizing depth ns with
  | ret isReturn value ends =>
    rw [Stmt.allNodes_singleton]
    exact (typed_of_readsExpr value rfl (hd.move (.step isReturn (by decide))) ht.tail).tail
  | cond isIf opens test closes first second ih₁ ih₂ =>
    have hd := (hd.move (.step isIf (by decide))).move (.step opens (by decide))
    have hd₁ := hd.across (exists_covers_of_readsPush test closes (by decide))
    have hd₂ := hd₁.across (exists_covers_of_readsStmt first)
    have hx := typed_of_readsExpr test rfl hd ht.tail.tail
    have hall := ih₂ hd₂ (ih₁ hd₁ hx.tail)
    refine hall.congr fun e => ?_
    simp [Stmt.allNodes_singleton, Stmt.nodes, or_left_comm]
  | loop isFor opens init cond inc inner ih =>
    have hd := (hd.move (.step isFor (by decide))).move (.step opens (by decide))
    have hd₁ := hd.across (exists_covers_of_readsFirst init)
    have hd₂ := hd₁.across (exists_covers_of_readsOptional cond (by decide))
    have hd₃ := hd₂.across (exists_covers_of_readsOptional inc (by decide))
    have hfirst := typed_of_readsFirst init hd ht.tail.tail
    have htest := typed_of_readsOptional cond hd₁ hfirst
    have hall := ih hd₃ (typed_of_readsOptional inc hd₂ htest)
    refine hall.congr fun e => ?_
    simp [Stmt.allNodes_singleton, Stmt.nodes, or_left_comm]
  | whileLoop isWhile opens test closes inner ih =>
    have hd := (hd.move (.step isWhile (by decide))).move (.step opens (by decide))
    have hd₁ := hd.across (exists_covers_of_readsPush test closes (by decide))
    have hx := typed_of_readsExpr test rfl hd ht.tail.tail
    have hall := ih hd₁ hx.tail
    refine hall.congr fun e => ?_
    simp [Stmt.allNodes_singleton, Stmt.nodes, Expr.nodes, or_left_comm]
  | nested opens inner ih =>
    rw [Stmt.allNodes_singleton]
    exact ih (hd.enter opens) ht.tail
  | empty ends => exact ht.tail
  | expr plain inner ends =>
    rw [Stmt.allNodes_singleton]
    exact (typed_of_readsExpr inner rfl hd ht).tail
  | noElse noElse => exact ht
  | orElse isElse inner ih => exact ih (hd.move (.step isElse (by decide))) ht.tail
  | endBlock closes => exact ht.tail
  | declaration isInt first rest ih =>
    have hd := hd.move (.begins isInt)
    have hd₁ := hd.across (exists_covers_of_readsDeclarators first)
    have hall := ih hd₁ (typed_of_readsDeclarators first hd ht.tail)
    refine hall.congr fun e => ?_
    simp [Stmt.allNodes, Stmt.nodes, or_left_comm]
  | item notEnd noInt first rest ih₁ ih₂ =>
    have hd₁ := hd.across (exists_covers_of_readsStmt first)
    have hall := ih₂ hd₁ (ih₁ hd ht)
    refine hall.congr fun e => ?_
    simp [Stmt.allNodes, or_left_comm]

/-- No nodes and no locals are where a block begins. -/
theorem Typed.initial (declared? : Int → Option Nat) (ahead : List Token) :
    Typed declared? [] ahead [] where
  behind _ he := absurd he List.not_mem_nil
  localsBehind _ hv := absurd hv List.not_mem_nil
  increasing := .nil
  closed _ he := absurd he List.not_mem_nil
  bound _ _ hm := absurd hm List.not_mem_nil
  inferred _ hv := absurd hv List.not_mem_nil

end Reading

/-- Every local of a parsed function has the type that its first mention gives it. -/
theorem infers_of_parse {src : Bytes} {toks : List Token} {req : Requirements} {p : Program}
    (hsrc : Token.scan src = .ok toks) (h : parse toks req = .ok p) :
    ∀ f ∈ p.funcs, ∀ v ∈ f.locals, f.Infers toks v := by
  intro f hf v hv
  refine ⟨find?_mentions_of_parse hsrc h hf hv, ?_⟩
  obtain ⟨s, stmts, s', reads, empty, locals, nodes, hinc, hm⟩ := exists_body_of_parse hsrc h hf
  have hd : Told (declaredAt? (f.mentions toks)) 0 .outside s.ahead :=
    ⟨hinc, fun t _ => by rw [hm]⟩
  have ht : Typed (declaredAt? (f.mentions toks)) [] s.ahead s.locals := empty ▸ .initial _ _
  have hall := typed_of_readsStmt reads hd ht
  rw [List.append_nil, ← nodes, ← locals] at hall
  exact hall.inferred v hv

/-- The tokens of a block in which one name still waits for its type where another gets its own. -/
def waitingTarget : List Token :=
  [⟨.punct, 0, ascii "\x7b", 0⟩, ⟨.keyword, 1, ascii "int", 0⟩, ⟨.punct, 4, ascii "*", 0⟩,
    ⟨.ident, 5, ascii "a", 0⟩, ⟨.punct, 6, ascii ";", 0⟩, ⟨.ident, 7, ascii "y", 0⟩,
    ⟨.punct, 8, ascii "=", 0⟩, ⟨.punct, 9, ascii "(", 0⟩, ⟨.ident, 10, ascii "x", 0⟩,
    ⟨.punct, 11, ascii "=", 0⟩, ⟨.punct, 12, ascii "&", 0⟩, ⟨.ident, 13, ascii "y", 0⟩,
    ⟨.punct, 14, ascii ")", 0⟩, ⟨.punct, 15, ascii ";", 0⟩, ⟨.punct, 16, ascii "\x7d", 0⟩, .eof 17]

theorem infers_of_waitingTarget :
    Token.scan (ascii "\x7bint*a;y=(x=&y);\x7d") = .ok waitingTarget ∧
      ∃ p f, parse waitingTarget {} = .ok p ∧ f ∈ p.funcs ∧
        (∀ v ∈ f.locals, f.Infers waitingTarget v) ∧
        f.locals = [⟨ascii "a", .ptr .int, 5⟩, ⟨ascii "y", .ptr .int, 7⟩,
          ⟨ascii "x", .ptr .int, 10⟩] := by
  have hsrc : Token.scan (ascii "\x7bint*a;y=(x=&y);\x7d") = .ok waitingTarget := by
    decide +kernel
  have hp : (parse waitingTarget {}).map (fun p => p.funcs.map Function.locals) =
      .ok [[⟨ascii "a", .ptr .int, 5⟩, ⟨ascii "y", .ptr .int, 7⟩,
        ⟨ascii "x", .ptr .int, 10⟩]] := by
    set_option maxRecDepth 2000 in exact map_parse_of_walk rfl
  obtain ⟨p, hp, hl⟩ := Outcome.map_eq_ok.mp hp
  obtain ⟨f, hf, hl⟩ := List.map_eq_singleton_iff.mp hl
  have hm : f ∈ p.funcs := by
    rw [hf]
    exact List.mem_singleton_self f
  exact ⟨hsrc, p, f, hp, hm, infers_of_parse hsrc hp f hm, hl⟩

end Grammar

end StackC
