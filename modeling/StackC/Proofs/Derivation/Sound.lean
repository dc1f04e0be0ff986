import StackC.Proofs.Derivation.Names
import StackC.Proofs.Reading.Program

/-! What is read is derived by the grammar, and its names are bound from left to right. -/
namespace StackC.Derivation
open Grammar

/-- The rule of the first levels of binary operators. -/
def levelRule : Nat → Rule
  | 0 => .unary
  | 1 => .mul
  | 2 => .add
  | 3 => .relational
  | _ => .equality

def levelOperator : Nat → Phrase
  | 0 => .oneOf "*" ["/"]
  | 1 => .oneOf "+" ["-"]
  | 2 => .oneOf "<" ["<=", ">", ">="]
  | _ => .oneOf "==" ["!="]

def argumentPhrase : Phrase := .seqs [.rule .assign, .many (.seqs [.lit ",", .rule .assign])]

/-- The phrase that a form is read from. -/
def phrase : Form → Phrase
  | .primary => .rule .primary
  | .arguments => .seqs [.opt argumentPhrase, .lit ")"]
  | .argumentList => argumentPhrase
  | .unary => .rule .unary
  | .binary n => .rule (levelRule n)
  | .chain n _ =>
    if n < levels then .many (.seq (levelOperator n) (.rule (levelRule n))) else .empty
  | .assign => .rule .assign

theorem body_levelRule {n : Nat} (h : n < levels) :
    (levelRule (n + 1)).body = .chain (.rule (levelRule n)) (levelOperator n) := by
  match n with
  | 0 | 1 | 2 | 3 => rfl
  | n + 4 => exact absurd h (by simp [levels])

theorem levelRule_succ {n : Nat} (h : ¬ n < levels) : levelRule (n + 1) = levelRule n := by
  match n with
  | 0 | 1 | 2 | 3 => exact absurd (by decide) h
  | n + 4 => rfl

def localNames (s : State) : List Bytes := s.locals.map Local.name

theorem map_name_retype (locals : List Local) (i : Nat) (type : Ty) :
    (retype locals i type).map Local.name = locals.map Local.name := by
  apply List.ext_getElem?
  intro j
  by_cases hj : i = j
  · cases h : locals[j]? <;> simp [retype, hj, h]
  · simp [retype, hj]

@[simp] theorem map_name_inferDeref (locals : List Local) (fresh : Option Nat) (e : Expr) :
    (inferDeref locals fresh e).map Local.name = locals.map Local.name := by
  unfold inferDeref
  repeat' split
  all_goals simp [map_name_retype]

@[simp] theorem map_name_inferAssign (locals : List Local) (fresh : Option Nat) (l r : Expr) :
    (inferAssign locals fresh l r).map Local.name = locals.map Local.name := by
  unfold inferAssign
  repeat' split
  all_goals simp [map_name_retype]

theorem findLocal?_eq_none {locals : List Local} {name : Bytes} :
    findLocal? locals name = none ↔ name ∉ locals.map Local.name := by
  simp [findLocal?]

/-- A name read as a variable is bound as one. -/
theorem bind_of_resolve {locals locals' : List Local} {t : Token} {i : Nat} {fresh : Option Nat}
    (h : resolve locals t = .ok (i, locals', fresh)) :
    bind (locals.map Local.name) ⟨.used, t.lit⟩ = some (locals'.map Local.name) := by
  unfold resolve at h
  split at h
  · next j hj =>
    cases h
    have hm : t.lit ∈ locals.map Local.name := by
      by_contra hn
      rw [findLocal?_eq_none.mpr hn] at hj
      cases hj
    simp only [bind, hm, if_true]
  · next hj =>
    have hm := findLocal?_eq_none.mp hj
    split at h
    · cases h
    · next hs =>
      cases h
      rw [beq_iff_eq] at hs
      simp only [bind, hm, hs, if_false, declare, List.map_append, List.map_cons, List.map_nil]

/-- The tokens of the operators of a level. -/
theorem derives_levelOperator {n : Nat} (hn : n < levels) {w : List Token} {o : List Occurrence} :
    Derives (levelOperator n) w o ↔ ∃ t, (operator? n t).isSome ∧ w = [t] ∧ o = [] := by
  match n with
  | 0 | 1 | 2 | 3 =>
    simp only [levelOperator, Phrase.oneOf, derives_alt, derives_lit, operator?]
    grind
  | n + 4 => exact absurd hn (by simp [levels])

theorem lt_levels_of_operator? {n : Nat} {t : Token} {op : BinaryOp × Bool}
    (h : operator? n t = some op) : n < levels := by
  match n with
  | 0 | 1 | 2 | 3 => decide
  | n + 4 => cases h

/-- The tokens that stand before an operand. -/
theorem derives_unaryOperator {w : List Token} {o : List Occurrence} :
    Derives (.oneOf "+" ["-", "*", "&"]) w o ↔
      ∃ t : Token, (t.is (ascii "+") ∨ (unary? t).isSome) ∧ w = [t] ∧ o = [] := by
  simp only [Phrase.oneOf, derives_alt, derives_lit, unary?]
  grind

/-- Between two states stands what a phrase derives, and its names lead from the locals of the one
to those of the other. -/
def Spans (a : Phrase) (s s' : State) : Prop :=
  ∃ w o, s.ahead = w ++ s'.ahead ∧ Derives a w o ∧ bindAll (localNames s) o = some (localNames s')

namespace Spans

variable {a b : Phrase} {r : Rule} {s s₁ s₂ : State} {t : Token} {text : String}

theorem empty : Spans .empty s s := ⟨[], [], rfl, .empty, rfl⟩

theorem lit (h : t.is (ascii text)) : Spans (.lit text) (s.push t) s :=
  ⟨[t], [], rfl, .lit h, rfl⟩

theorem levelOperator {n : Nat} {op : BinaryOp × Bool} (h : operator? n t = some op) :
    Spans (levelOperator n) (s.push t) s :=
  ⟨[t], [], rfl, (derives_levelOperator (lt_levels_of_operator? h)).mpr ⟨t, by simp [h]⟩, rfl⟩

private theorem unaryOperator {node : Int → Expr → Expr} (h : unary? t = some node) :
    Spans (.oneOf "+" ["-", "*", "&"]) (s.push t) s :=
  ⟨[t], [], rfl, derives_unaryOperator.mpr ⟨t, by simp [h]⟩, rfl⟩

theorem callee (h : t.kind = .ident) : Spans (.name .callee) (s.push t) s :=
  ⟨[t], _, rfl, .name h, rfl⟩

theorem number (h : t.kind = .num) : Spans .number (s.push t) s := ⟨[t], [], rfl, .number h, rfl⟩

theorem rule (h : Spans r.body s s₁) : Spans (.rule r) s s₁ := by
  obtain ⟨w, o, hw, hd, hb⟩ := h
  exact ⟨w, o, hw, .rule hd, hb⟩

theorem left (h : Spans a s s₁) : Spans (.alt a b) s s₁ := by
  obtain ⟨w, o, hw, hd, hb⟩ := h
  exact ⟨w, o, hw, .left hd, hb⟩

theorem right (h : Spans b s s₁) : Spans (.alt a b) s s₁ := by
  obtain ⟨w, o, hw, hd, hb⟩ := h
  exact ⟨w, o, hw, .right hd, hb⟩

theorem seq (ha : Spans a s s₁) (hb : Spans b s₁ s₂) : Spans (.seq a b) s s₂ := by
  obtain ⟨w, o, hw, hda, hba⟩ := ha
  obtain ⟨v, p, hv, hdb, hbb⟩ := hb
  exact ⟨w ++ v, o ++ p, by rw [hw, hv, List.append_assoc], .seq hda hdb, by simp [hba, hbb]⟩

theorem none : Spans (.many a) s s := ⟨[], [], rfl, .none, rfl⟩

theorem more (ha : Spans a s s₁) (hb : Spans (.many a) s₁ s₂) : Spans (.many a) s s₂ := by
  obtain ⟨w, o, hw, hda, hba⟩ := ha
  obtain ⟨v, p, hv, hdb, hbb⟩ := hb
  exact ⟨w ++ v, o ++ p, by rw [hw, hv, List.append_assoc], .more hda hdb, by simp [hba, hbb]⟩

/-- The locals may change in anything but their names. -/
theorem withLocals {locals : List Local} (h : Spans a s s₁)
    (hn : locals.map Local.name = s₁.locals.map Local.name) : Spans a s { s₁ with locals } := by
  obtain ⟨w, o, hw, hd, hb⟩ := h
  exact ⟨w, o, hw, hd, by rw [hb]; exact congrArg some hn.symm⟩

/-- A sequence has a state between its parts. -/
theorem exists_seq (h : Spans (.seq a b) s s₂) : ∃ s₁, Spans a s s₁ ∧ Spans b s₁ s₂ := by
  obtain ⟨w, o, hw, hd, hb⟩ := h
  obtain ⟨v₁, p₁, h₁, v₂, p₂, h₂, rfl, rfl⟩ := derives_seq.mp hd
  rw [bindAll_append, Option.bind_eq_some_iff] at hb
  obtain ⟨names, hb₁, hb₂⟩ := hb
  let s₁ : State :=
    { s with ahead := v₂ ++ s₂.ahead, locals := names.map fun name => ⟨name, .int, 0⟩ }
  have hn : localNames s₁ = names := by simp [localNames, s₁, Function.comp_def]
  exact ⟨s₁, ⟨v₁, p₁, by simp [hw, s₁], h₁, by rw [hb₁, hn]⟩,
    ⟨v₂, p₂, rfl, h₂, by rw [hn, hb₂]⟩⟩

/-- What spans nothing can be left out behind. -/
theorem seqEmpty (h : Spans a s s₁) (he : Spans .empty s₁ s₂) : Spans a s s₂ := by
  obtain ⟨w, o, hw, hd, hb⟩ := h
  obtain ⟨v, p, hv, hdv, hbv⟩ := he
  obtain ⟨rfl, rfl⟩ := derives_empty.mp hdv
  exact ⟨w, o, by rw [hw, hv, List.nil_append], hd, hb.trans hbv⟩

end Spans

/-- One more item and a comma before others. -/
theorem spans_item {a tail : Phrase} {s s₁ s₂ : State} {t : Token} (hx : Spans a s (s₁.push t))
    (ht : t.is (ascii ",")) (hs : Spans (.seq a (.seq (.many (.seq (.lit ",") a)) tail)) s₁ s₂) :
    Spans (.seq a (.seq (.many (.seq (.lit ",") a)) tail)) s s₂ := by
  obtain ⟨s₃, ha, hm⟩ := hs.exists_seq
  obtain ⟨s₄, hm, hb⟩ := hm.exists_seq
  exact .seq hx (.seq (.more (.seq (.lit ht) ha) hm) hb)

theorem spans_of_reads {f : Form} {s s' : State} {xs : List Expr} (h : Reads f s xs s') :
    Spans (phrase f) s s' := by
  induction h with
  | paren opens inner closes ih =>
    exact .rule (.left (.seq (.lit opens) (.seq (.rule ih) (.lit closes))))
  | call isName opens inner ih =>
    exact .rule (.right (.left (.seq (.callee isName) (.seq (.lit opens) ih))))
  | @name s t i locals fresh isName noCall known =>
    refine ⟨[t], [⟨.used, t.lit⟩], rfl, .rule (.right (.right (.left (.name isName)))), ?_⟩
    rw [bindAll_cons]
    exact congrArg (Option.bind · _) (bind_of_resolve known)
  | number isNumber => exact .rule (.right (.right (.right (.number isNumber))))
  | noArguments closes => exact .seq (.right .empty) (.lit closes)
  | arguments more inner closes ih => exact .seq (.left ih) (.lit closes)
  | lastArgument only last ih => exact .seq ih .none
  | moreArguments first comma others ih₁ ih₂ =>
    obtain ⟨s₃, ha, hm⟩ := ih₂.exists_seq
    exact .seq ih₁ (.more (.seq (.lit comma) ha) hm)
  | plus isPlus operand ih =>
    exact .rule (.left (.seq (.left (.lit isPlus)) ih))
  | unary noPlus isOp operand ih =>
    exact .rule (.left (.seq (.unaryOperator isOp) (ih.withLocals (map_name_inferDeref _ _ _))))
  | operand noUnary inner ih => exact .rule (.right ih)
  | tightest inner ih => exact ih
  | @level s s₁ s₂ n l x left rest ih₁ ih₂ =>
    by_cases hn : n < levels
    · rw [phrase, if_pos hn] at ih₂
      refine .rule ?_
      rw [body_levelRule hn]
      exact .seq ih₁ ih₂
    · rw [phrase, if_neg hn] at ih₂
      rw [phrase, levelRule_succ hn]
      exact ih₁.seqEmpty ih₂
  | @endChain s n l noOperator =>
    rw [phrase]
    split
    · exact .none
    · exact .empty
  | chain isOp right rest ih₁ ih₂ =>
    rw [phrase, if_pos (lt_levels_of_operator? isOp)] at ih₂ ⊢
    exact .more (.seq (.levelOperator isOp) ih₁) ih₂
  | value inner noAssign ih => exact .rule (.seq ih (.right .empty))
  | assign left eq right ih₁ ih₂ =>
    exact .rule (.seq ih₁ (.left (.seq (.lit eq) (ih₂.withLocals (map_name_inferAssign _ _ _ _)))))

theorem spans_stars {s : State} {stars : List Token} (h : ∀ t ∈ stars, t.is (ascii "*")) :
    Spans (.many (.lit "*")) (s.pushAll stars) s :=
  ⟨stars, [], rfl, derives_stars.mpr ⟨h, rfl⟩, rfl⟩

theorem spans_declared {s : State} {name : Token} {type : Ty} (isName : name.kind = .ident)
    (isNew : findLocal? s.locals name.lit = none) (notScratch : name.lit ≠ scratchName) :
    Spans (.name .declared) (s.push name)
      { s with locals := declare s.locals name.lit type name.pos } := by
  refine ⟨[name], [⟨.declared, name.lit⟩], rfl, .name isName, ?_⟩
  have hn : ¬(name.lit ∈ localNames (s.push name) ∨ name.lit = scratchName) :=
    not_or.mpr ⟨findLocal?_eq_none.mp isNew, notScratch⟩
  simp only [bindAll_cons, bind, if_neg hn]
  simp [localNames, declare]

theorem spans_of_readsDeclarator {s s' : State} {inits : List Stmt}
    (h : ReadsDeclarator s inits s') : Spans (.rule .declarator) s s' := by
  cases h with
  | bare areStars isName isNew notScratch noValue =>
    exact .rule (.seq (spans_stars areStars)
      (.seq (spans_declared isName isNew notScratch) (.right .empty)))
  | @init s s₁ stars name t x areStars isName isNew notScratch eq value =>
    let locals := declare s.locals name.lit (.stars stars.length) name.pos
    have hd : Spans (.name .declared) ((s.push t).push name) { s.push t with locals } :=
      spans_declared isName isNew notScratch
    have he : Spans (.lit "=") { s.push t with locals } { s with locals } :=
      Spans.lit (s := { s with locals }) eq
    exact .rule (.seq (spans_stars areStars) (.seq hd (.left (.seq he (spans_of_reads value)))))

theorem spans_of_readsDeclarators {s s' : State} {inits : List Stmt}
    (h : ReadsDeclarators s inits s') :
    Spans (.seqs [.rule .declarator, .many (.seqs [.lit ",", .rule .declarator]), .lit ";"])
      s s' := by
  induction h with
  | last only ends => exact .seq (spans_of_readsDeclarator only) (.seq .none (.lit ends))
  | more first comma rest ih => exact spans_item (spans_of_readsDeclarator first) comma ih

theorem spans_of_readsOptional {close : String} {s s' : State} {x : Expr}
    (h : ReadsOptional (ascii close) s x s') :
    Spans (.seq (.opt (.rule .expr)) (.lit close)) s s' := by
  cases h with
  | absent closes => exact .seq (.right .empty) (.lit closes)
  | present notYet inner closes => exact .seq (.left (.rule (spans_of_reads inner))) (.lit closes)

theorem spans_of_readsFirst {s s' : State} {first : Stmt} (h : ReadsFirst s first s') :
    Spans (.rule .exprStmt) s s' := by
  cases h with
  | absent ends => exact .rule (.seq (.right .empty) (.lit ends))
  | present notYet inner ends =>
    exact .rule (.seq (.left (.rule (spans_of_reads inner))) (.lit ends))

def stmtPhrase : StmtForm → Phrase
  | .stmt => .rule .stmt
  | .otherwise => .opt (.seqs [.lit "else", .rule .stmt])
  | .block => .rule .block

/-- One more item before those of a block. -/
theorem spans_blockItem {s s₁ s₂ : State}
    (hx : Spans (.alt (.rule .declaration) (.rule .stmt)) s s₁) (hs : Spans (.rule .block) s₁ s₂) :
    Spans (.rule .block) s s₂ := by
  obtain ⟨w, o, hw, hd, hb⟩ := hs
  have hs : Spans (Rule.body .block) s₁ s₂ := ⟨w, o, hw, derives_rule.mp hd, hb⟩
  obtain ⟨s₃, hm, hc⟩ := hs.exists_seq
  exact .rule (.seq (.more hx hm) hc)

/-- A conditional before its branches. -/
theorem spans_cond {s s₁ s₂ s₃ : State} {t t₁ t₂ : Token} {x : Expr} (isIf : t.is (ascii "if"))
    (opens : t₁.is (ascii "(")) (test : Reads .assign s [x] (s₁.push t₂))
    (closes : t₂.is (ascii ")")) (first : Spans (.rule .stmt) s₁ s₂)
    (second : Spans (stmtPhrase .otherwise) s₂ s₃) :
    Spans (.rule .stmt) ((s.push t₁).push t) s₃ :=
  .rule (.right (.left (.seq (.lit isIf) (.seq (.lit opens)
    (.seq (.rule (spans_of_reads test)) (.seq (.lit closes) (.seq first second)))))))

/-- The head of a loop before its body. -/
theorem spans_loop {s s₁ s₂ s₃ s₄ : State} {t t₁ : Token} {first : Stmt} {test step : Expr}
    (isFor : t.is (ascii "for")) (opens : t₁.is (ascii "(")) (init : ReadsFirst s first s₁)
    (cond : ReadsOptional (ascii ";") s₁ test s₂) (inc : ReadsOptional (ascii ")") s₂ step s₃)
    (inner : Spans (.rule .stmt) s₃ s₄) :
    Spans (.rule .stmt) ((s.push t₁).push t) s₄ := by
  obtain ⟨s₅, hc, hs⟩ := (spans_of_readsOptional cond).exists_seq
  obtain ⟨s₆, hi, hp⟩ := (spans_of_readsOptional inc).exists_seq
  exact .rule (.right (.right (.left (.seq (.lit isFor) (.seq (.lit opens)
    (.seq (spans_of_readsFirst init) (.seq hc (.seq hs (.seq hi (.seq hp inner))))))))))

theorem spans_while {s s₁ s₂ : State} {t t₁ t₂ : Token} {x : Expr} (isWhile : t.is (ascii "while"))
    (opens : t₁.is (ascii "(")) (test : Reads .assign s [x] (s₁.push t₂))
    (closes : t₂.is (ascii ")")) (inner : Spans (.rule .stmt) s₁ s₂) :
    Spans (.rule .stmt) ((s.push t₁).push t) s₂ :=
  .rule (.right (.right (.right (.left (.seq (.lit isWhile) (.seq (.lit opens)
    (.seq (.rule (spans_of_reads test)) (.seq (.lit closes) inner))))))))

theorem spans_of_readsStmt {f : StmtForm} {s s' : State} {xs : List Stmt}
    (h : ReadsStmt f s xs s') : Spans (stmtPhrase f) s s' := by
  induction h with
  | ret isReturn value ends =>
    exact .rule (.left (.seq (.lit isReturn) (.seq (.rule (spans_of_reads value)) (.lit ends))))
  | cond isIf opens test closes first second ih₁ ih₂ =>
    exact spans_cond isIf opens test closes ih₁ ih₂
  | loop isFor opens init cond inc inner ih => exact spans_loop isFor opens init cond inc ih
  | whileLoop isWhile opens test closes inner ih =>
    exact spans_while isWhile opens test closes ih
  | nested opens inner ih =>
    exact .rule (.right (.right (.right (.right (.left (.seq (.lit opens) ih))))))
  | empty ends =>
    exact .rule (.right (.right (.right (.right (.right
      (.rule (.seq (.right .empty) (.lit ends))))))))
  | expr plain inner ends =>
    exact .rule (.right (.right (.right (.right (.right
      (.rule (.seq (.left (.rule (spans_of_reads inner))) (.lit ends))))))))
  | noElse noElse => exact .right .empty
  | orElse isElse inner ih => exact .left (.seq (.lit isElse) ih)
  | endBlock closes => exact .rule (.seq .none (.lit closes))
  | declaration isInt first rest ih =>
    exact spans_blockItem (.left (.rule (.seq (.lit isInt) (spans_of_readsDeclarators first)))) ih
  | item notEnd noInt first rest ih₁ ih₂ => exact spans_blockItem (.right ih₁) ih₂

/-- The name of a function comes before all others in it. -/
theorem derives_of_readsFunction {s s' : State} {f : Function} (h : ReadsFunction s f s') :
    ∃ w o, s.ahead = w ++ s'.ahead ∧ Derives (.rule .function) w (⟨.function, f.name⟩ :: o) ∧
      functionNames o = [] ∧ (bindAll [] o).isSome := by
  cases h with
  | @intro s s₁ stars t name opening closing brace stmts isInt areStars isName opens closes begins
      inner =>
    obtain ⟨w, o, hw, hd, hb⟩ := spans_of_readsStmt inner
    have hb : bindAll [] o = some (localNames s') := hb
    have hf : functionNames o = [] := functionNames_eq_nil.mpr (role_ne_function hd rfl)
    refine ⟨t :: (stars ++ name :: opening :: closing :: brace :: w), o, ?_, ?_, hf, by simp [hb]⟩
    · simpa [State.pushAll] using hw
    · exact .rule (.seq (.lit isInt) (.seq (derives_stars.mpr ⟨areStars, rfl⟩)
        (.seq (.name isName) (.seq (.lit opens) (.seq (.lit closes) (.seq (.lit begins) hd))))))

private theorem derives_of_readsFunctions {known : List Function} {s : State} {p : Program}
    (h : ReadsFunctions known s p) (names : List Bytes)
    (hk : (known.map Function.name).Nodup) :
    ∃ o, Derives (.many (.rule .function)) s.ahead o ∧ (bindAll names o).isSome ∧
      (known.map Function.name ++ functionNames o).Nodup := by
  induction h generalizing names with
  | done ended =>
    rw [ended]
    exact ⟨[], .none, rfl, by simpa [functionNames] using hk⟩
  | @more known s s₁ f p first isNew rest ih =>
    have hn : ∀ g ∈ known, g.name ≠ f.name := by simpa [findFunction?] using isNew
    obtain ⟨w, o₁, hw, hd, hf, hb⟩ := derives_of_readsFunction first
    obtain ⟨locals, hl⟩ := Option.isSome_iff_exists.mp hb
    obtain ⟨o₂, hds, hbs, hnd⟩ := ih locals (by simpa [List.nodup_append, hk] using hn)
    rw [hw]
    refine ⟨_, .more hd hds, ?_, ?_⟩
    · simpa [bind, hl] using hbs
    · rw [functionNames_append, functionNames_cons, hf]
      simpa using hnd

/-- A program of one of the two kinds, without the mark at its end. -/
def programPhrase (topLevel : Bool) : Phrase :=
  if topLevel then .seq (.lit "\x7b") (.rule .block) else .many (.rule .function)

theorem derives_of_readsProgram {s : State} {p : Program} (h : ReadsProgram s p)
    (hs : s.locals = []) :
    ∃ o, Derives (programPhrase (s.starts (ascii "\x7b"))) s.ahead o ∧ SideConditions o := by
  have sideConditions {o : List Occurrence} (hb : (bindAll [] o).isSome)
      (hn : (functionNames o).Nodup) : SideConditions o := by
    obtain ⟨hd, hu, -⟩ := (isSome_bindAll_iff List.not_mem_nil o).mp hb
    exact ⟨hd, hu, hn⟩
  cases h with
  | @topLevel s s₁ t stmts opens inner ended =>
    obtain ⟨w, o, hw, hd, hb⟩ := spans_of_readsStmt inner
    have hb : bindAll (s.locals.map Local.name) o = some (localNames s₁) := hb
    rw [show s.locals = [] from hs, List.map_nil] at hb
    rw [ended, List.append_nil] at hw
    refine ⟨o, ?_, sideConditions (by simp [hb]) ?_⟩
    · rw [State.starts_push, opens, State.push_ahead, hw]
      exact .seq (.lit opens) hd
    · simp [functionNames_eq_nil.mpr (role_ne_function hd rfl)]
  | functions notBlock inner =>
    obtain ⟨o, hd, hb, hn⟩ := derives_of_readsFunctions inner [] List.nodup_nil
    exact ⟨o, notBlock ▸ hd, sideConditions hb hn⟩

end StackC.Derivation
