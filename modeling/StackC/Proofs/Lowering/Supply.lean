import StackC.Proofs.Lowering.Balance

/-! The code of an expression lives on what it puts on the stack itself: it leaves one value, and no
instruction takes more than the instructions before it have put there. -/
namespace StackC

section Nodes

variable {count : Nat} {req : Requirements} {y : Expr}

theorem Expr.mem_allNodes {xs : List Expr} : y ∈ allNodes xs ↔ ∃ x ∈ xs, y ∈ x.nodes := by
  induction xs with
  | nil => simp [allNodes]
  | cons x xs ih => simp [allNodes, ih]

/-- What stands inside a proper expression is proper. -/
theorem Expr.Proper.of_mem_nodes {x : Expr} (h : x.Proper count req) (hy : y ∈ x.nodes) :
    y.Proper count req := by
  induction h with
  | num =>
    cases List.mem_singleton.mp hy
    exact .num
  | var bound =>
    cases List.mem_singleton.mp hy
    exact .var bound
  | neg operand ih =>
    rcases List.mem_cons.mp hy with rfl | hy
    · exact .neg operand
    · exact ih hy
  | addr operand ih =>
    rcases List.mem_cons.mp hy with rfl | hy
    · exact .addr operand
    · exact ih hy
  | deref operand ih =>
    rcases List.mem_cons.mp hy with rfl | hy
    · exact .deref operand
    · exact ih hy
  | binary supported left right ih₁ ih₂ =>
    rw [nodes, List.mem_cons, List.mem_append] at hy
    rcases hy with rfl | hy | hy
    · exact .binary supported left right
    · exact ih₁ hy
    · exact ih₂ hy
  | assign left right ih₁ ih₂ =>
    rw [nodes, List.mem_cons, List.mem_append] at hy
    rcases hy with rfl | hy | hy
    · exact .assign left right
    · exact ih₁ hy
    · exact ih₂ hy
  | @call pos name args isName arguments ih =>
    rcases List.mem_cons.mp hy with rfl | hy
    · exact .call isName arguments
    · obtain ⟨x, hx, hy⟩ := mem_allNodes.mp hy
      exact ih x hx hy

/-- The expressions in a proper statement are proper. -/
theorem Stmt.Proper.of_mem_nodes {x : Stmt} (h : x.Proper count req) (hy : y ∈ x.nodes) :
    y.Proper count req := by
  have optional (z : Expr) (hz : z.isAbsent = false → z.Proper count req) :
      y ∈ z.nodes → y.Proper count req :=
    z.absent_or (fun hm => by cases hm) fun hp hm => (hz hp).of_mem_nodes hm
  have optionalStmt (z : Stmt) (hz : z.isAbsent = false → y ∈ z.nodes → y.Proper count req) :
      y ∈ z.nodes → y.Proper count req :=
    z.absent_or (fun hm => by cases hm) hz
  induction h with
  | block inner ih =>
    obtain ⟨x, hx, hy⟩ := mem_allNodes.mp hy
    exact ih x hx hy
  | cond tested first second ih₁ ih₂ =>
    simp only [nodes, List.mem_append] at hy
    rcases hy with hy | hy | hy
    · exact tested.of_mem_nodes hy
    · exact ih₁ hy
    · exact optionalStmt _ ih₂ hy
  | loop started tested stepped inner ih₁ ih₂ =>
    simp only [nodes, List.mem_append] at hy
    rcases hy with hy | hy | hy | hy
    · exact optionalStmt _ ih₁ hy
    · exact optional _ tested hy
    · exact optional _ stepped hy
    · exact ih₂ hy
  | ret value => exact value.of_mem_nodes hy
  | expr value => exact value.of_mem_nodes hy

theorem Function.Proper.of_mem_nodes {f : Function} (h : f.Proper req) (hy : y ∈ f.nodes) :
    y.Proper f.locals.length req := by
  obtain ⟨b, hb, hs⟩ := h.body
  rw [Function.nodes, hb] at hy
  obtain ⟨x, hx, hy⟩ := Stmt.mem_allNodes.mp hy
  exact (hs x hx).of_mem_nodes hy

end Nodes

namespace Asm

/-- Begun with this many values on the stack, no instruction takes more than there are. -/
def Supplied (m : JumpMeaning) : Int → List Marked → Prop
  | _, [] => True
  | d, i :: code => i.pops ≤ d ∧ Supplied m (d + i.net m) code

section Supplied

variable {m : JumpMeaning} {d e : Int} {a b code : List Marked}

theorem supplied_append : Supplied m d (a ++ b) ↔ Supplied m d a ∧ Supplied m (d + rise m a) b := by
  induction a generalizing d with
  | nil => simp [Supplied]
  | cons i a ih =>
    rw [List.cons_append, Supplied, Supplied, ih, rise_cons, and_assoc, Int.add_assoc]

/-- What is enough stays enough with more values below. -/
theorem Supplied.mono (h : Supplied m d code) (hd : d ≤ e) : Supplied m e code := by
  induction code generalizing d e with
  | nil => trivial
  | cons i code ih => exact ⟨by have := h.1; omega, ih h.2 (by omega)⟩

private theorem supplied_iff :
    Supplied m d code ↔ ∀ a i b, code = a ++ i :: b → i.pops ≤ d + rise m a := by
  constructor
  · rintro h a i b rfl
    exact (supplied_append.mp h).2.1
  · intro h
    induction code generalizing d with
    | nil => trivial
    | cons i code ih =>
      refine ⟨by simpa using h [] i code rfl, ih fun a j b hj => ?_⟩
      have hrest := h (i :: a) j b (by rw [hj, List.cons_append])
      rw [rise_cons] at hrest
      omega

end Supplied

end Asm

namespace Lowering

open Asm

variable {c : Context} {code : List Instr} {x : Expr} {m : JumpMeaning} {d : Int}

theorem supplied_mark_append {xs ys : List Invocation} {a b : List Instr} (ha : Makes xs a) :
    Supplied m d (mark (xs ++ ys) (a ++ b)) ↔
      Supplied m d (mark xs a) ∧ Supplied m (d + rise m (mark xs a)) (mark ys b) := by
  rw [mark_append ha, supplied_append]

/-- One more instruction, behind code that leaves what it takes. -/
theorem supplied_mark_snoc {xs : List Invocation} {a : List Instr} {i : Instr} (ha : Makes xs a)
    (hi : i.calls? = none) (hs : Supplied m d (mark xs a))
    (hp : Marked.pops ⟨i, 0⟩ ≤ d + rise m (mark xs a)) : Supplied m d (mark xs (a ++ [i])) := by
  rw [mark_snoc ha hi, supplied_append]
  exact ⟨hs, hp, trivial⟩

private theorem supplied_operation {pos : Int} {op : BinaryOp} {i : Instr}
    (h : operation c pos op = .ok i) (hd : 2 ≤ d) :
    Supplied m d (mark op.invocation?.toList [i]) := by
  have hpops : ∀ j ∈ mark op.invocation?.toList [i], j.pops = 2 := by
    unfold operation at h
    split at h
    · next j hj =>
      cases h
      cases op <;> cases hj <;> simp [mark, Marked.pops]
    · cases h
    · next r hn hr =>
      split at h
      · cases h
        simp [BinaryOp.invocation?, hr, mark, Marked.pops]
      · cases h
  have hlen : (mark op.invocation?.toList [i]).length = 1 := by
    rw [← List.length_map, ← instrs, instrs_mark]
    rfl
  obtain ⟨j, hj⟩ := List.length_eq_one_iff.mp hlen
  rw [hj] at hpops ⊢
  exact ⟨by rw [hpops j List.mem_cons_self]; exact hd, trivial⟩

theorem supplied_load_deref (name : Bytes) (hd : 0 ≤ d) :
    Supplied m d (mark [] [.load name, .deref]) := by
  have hone : (1 : Int) ≤ d + Marked.net m ⟨.load name, 0⟩ := by
    change 1 ≤ d + (1 - 0)
    omega
  exact ⟨hd, hone, trivial⟩

theorem supplied_reload (h : reload c x = .ok code) (hd : 0 ≤ d) : Supplied m d (mark [] code) := by
  unfold reload at h
  split at h
  · obtain ⟨name, -, h⟩ := Outcome.bind_eq_ok.mp h
    cases h
    exact ⟨hd, trivial⟩
  · obtain ⟨name, -, h⟩ := Outcome.bind_eq_ok.mp h
    cases h
    exact supplied_load_deref _ hd
  · cases h
    exact supplied_load_deref _ hd
  · cases h
    trivial

theorem supplied_values {args : List Expr} (hargs : ∀ x ∈ args, x.Proper c.locals.length c.req)
    (h : ∀ x ∈ args, ∀ code, value c x = .ok code → Supplied m 0 (mark x.calls code))
    (hd : 0 ≤ d) (hv : values c args = .ok code) :
    Supplied m d (mark (Expr.allCalls args) code) := by
  induction args generalizing code d with
  | nil =>
    cases hv
    trivial
  | cons x args ih =>
    rw [List.forall_mem_cons] at hargs h
    obtain ⟨a, b, ha, hb, rfl⟩ := values_cons_eq_ok.mp hv
    rw [Expr.allCalls, supplied_mark_append (makes_of_value hargs.1 ha),
      rise_of_value m hargs.1 ha]
    exact ⟨(h.1 a ha).mono hd, ih hargs.2 h.2 (by omega) hb⟩

/-- A store needs the value that is stored. -/
theorem supplied_place (h : ∀ q y, x = .deref q y → y.Proper c.locals.length c.req ∧
      ∀ a, value c y = .ok a → Supplied m 0 (mark y.calls a))
    (hp : place c x = .ok code) : Supplied m 1 (mark x.calls code) := by
  rcases place_cases hp with ⟨p, i, name, rfl, -, rfl⟩ | ⟨q, p, i, name, rfl, -, rfl⟩ |
    ⟨q, y, a, rfl, -, ha, rfl⟩
  · exact ⟨Int.le_refl 1, trivial⟩
  · exact ⟨Int.le_refl 1, trivial⟩
  · obtain ⟨proper, hy⟩ := h q y rfl
    rw [Expr.calls, ← List.append_nil y.calls, supplied_mark_append (makes_of_value proper ha),
      rise_of_value m proper ha]
    exact ⟨(hy a ha).mono (by decide), by decide, Int.le_refl 1, trivial⟩

/-- The code of an expression needs nothing on the stack, and a store into it one value. -/
theorem supplied_of_expr (hx : x.Proper c.locals.length c.req) :
    (∀ code, value c x = .ok code → Supplied m 0 (mark x.calls code)) ∧
      ∀ code, place c x = .ok code → Supplied m 1 (mark x.calls code) := by
  induction hx with
  | num =>
    refine ⟨fun code h => ?_, fun code => supplied_place (by simp)⟩
    cases h
    exact ⟨Int.le_refl 0, trivial⟩
  | var bound =>
    refine ⟨fun code h => ?_, fun code => supplied_place (by simp)⟩
    obtain ⟨name, -, rfl⟩ := value_var_eq_ok.mp h
    exact ⟨Int.le_refl 0, trivial⟩
  | neg operand ih =>
    refine ⟨fun code h => ?_, fun code => supplied_place (by simp)⟩
    obtain ⟨a, ha, rfl⟩ := value_neg_eq_ok.mp h
    rw [Expr.calls]
    refine supplied_mark_snoc (makes_of_value operand ha) rfl (ih.1 a ha) ?_
    rw [rise_of_value m operand ha]
    decide
  | addr operand ih =>
    refine ⟨fun code h => ?_, fun code => supplied_place (by simp)⟩
    obtain ⟨p, i, name, rfl, -, rfl⟩ := value_addr_eq_ok.mp h
    exact ⟨Int.le_refl 0, trivial⟩
  | deref operand ih =>
    refine ⟨fun code h => ?_, fun code => supplied_place ?_⟩
    · obtain ⟨a, ha, rfl⟩ := value_deref_eq_ok.mp h
      rw [Expr.calls]
      refine supplied_mark_snoc (makes_of_value operand ha) rfl (ih.1 a ha) ?_
      rw [rise_of_value m operand ha]
      decide
    · intro q y he
      cases he
      exact ⟨operand, ih.1⟩
  | binary supported left right ih₁ ih₂ =>
    refine ⟨fun code h => ?_, fun code => supplied_place (by simp)⟩
    obtain ⟨a, b, i, ha, hb, hi, rfl⟩ := value_binary_eq_ok.mp h
    -- The left value waits on the stack while the right one is computed.
    rw [List.append_assoc, Expr.calls, supplied_mark_append (makes_of_value left ha),
      supplied_mark_append (makes_of_value right hb), rise_of_value m left ha,
      rise_of_value m right hb]
    exact ⟨ih₁.1 a ha, (ih₂.1 b hb).mono (by decide), supplied_operation hi (by decide)⟩
  | assign left right ih₁ ih₂ =>
    refine ⟨fun code h => ?_, fun code => supplied_place (by simp)⟩
    obtain ⟨a, b, e, ha, hb, he, rfl⟩ := value_assign_eq_ok.mp h
    have hright := makes_of_value right ha
    have hstore := (makes_of_expr left).2 b hb
    rw [Expr.calls, ← List.append_nil (Expr.calls _ ++ _),
      supplied_mark_append (hright.append hstore), supplied_mark_append hright,
      rise_mark_append m hright, rise_of_value m right ha, (rise_of_expr m left).2 b hb]
    exact ⟨⟨ih₂.1 a ha, ih₁.2 b hb⟩, supplied_reload he (by decide)⟩
  | @call pos name args isName arguments ih =>
    refine ⟨fun code h => ?_, fun code => supplied_place (by simp)⟩
    obtain ⟨-, a, ha, rfl⟩ := value_call_eq_ok.mp h
    have hmakes := makes_of_values (fun x hx => (makes_of_expr (arguments x hx)).1) ha
    have hrise := rise_values m arguments (fun x hx => (rise_of_expr m (arguments x hx)).1) ha
    rw [Expr.calls, supplied_mark_append hmakes, hrise]
    refine ⟨supplied_values arguments (fun x hx => (ih x hx).1) (Int.le_refl 0) ha, ?_, trivial⟩
    simp [Marked.pops]

theorem supplied_of_effect (hx : x.Proper c.locals.length c.req) (h : effect c x = .ok code) :
    Supplied m 0 (mark x.calls code) := by
  rcases effect_cases h with ⟨p, l, r, a, b, rfl, ha, hb, rfl⟩ | ⟨-, a, ha, rfl⟩
  · cases hx with
    | assign left right =>
      rw [Expr.calls, supplied_mark_append (makes_of_value right ha), rise_of_value m right ha]
      exact ⟨(supplied_of_expr right).1 a ha, (supplied_of_expr left).2 b hb⟩
  · refine supplied_mark_snoc (makes_of_value hx ha) rfl ((supplied_of_expr hx).1 a ha) ?_
    rw [rise_of_value m hx ha]
    decide

/-- The code makes these calls, has no labels and jumps to none, adds this to the depth of the
stack, and leaves alone what was there before. -/
structure Adds (m : JumpMeaning) (calls : List Invocation) (code : List Instr) (r : Int) :
    Prop where
  makes : Makes calls code
  unlabelled : labels code = []
  jumpless : targets code = []
  net : rise m (mark calls code) = r
  above : ∀ before i behind, mark calls code = before ++ i :: behind → i.pops ≤ rise m before

theorem adds_of_straight {calls : List Invocation} {r : Int} (hm : Makes calls code)
    (h : Straight m (mark calls code) r) (hs : Supplied m 0 (mark calls code)) :
    Adds m calls code r := by
  have hplain : code.all Instr.isPlain := by
    have h := h.plain
    rwa [instrs_mark] at h
  refine ⟨hm, labels_plain hplain, targets_plain hplain, h.rise_eq, fun before i behind he => ?_⟩
  have hi := supplied_iff.mp hs before i behind he
  rwa [Int.zero_add] at hi

/-- Wherever an expression stands in a source, its code is a straight line that leaves one value and
takes none from below; run for its effects alone, it leaves nothing. -/
theorem adds_of_parse {src : Bytes} {toks : List Token} {req : Requirements} {p : Program}
    (hsrc : Token.scan src = .ok toks) (hp : Grammar.parse toks req = .ok p) {f : Function}
    (hf : f ∈ p.funcs) {x : Expr} (hx : x ∈ f.nodes) (m : JumpMeaning) :
    (∀ code, value (context p f) x = .ok code → Adds m x.calls code 1) ∧
      ∀ code, effect (context p f) x = .ok code → Adds m x.calls code 0 := by
  have proper : x.Proper (context p f).locals.length (context p f).req :=
    ((Grammar.proper_of_parse hsrc hp).functions f hf).of_mem_nodes hx
  constructor
  · intro code h
    exact adds_of_straight (makes_of_value proper h) (straight_of_value m proper h)
      ((supplied_of_expr proper).1 code h)
  · intro code h
    exact adds_of_straight (makes_of_effect proper h) (straight_of_effect m proper h)
      (supplied_of_effect proper h)

/-- The tokens of a source that stores what a call with two arguments gives through a computed
address, and returns it. -/
def storedCallTokens : List Token :=
  [⟨.punct, 0, ascii "\x7b", 0⟩, ⟨.keyword, 1, ascii "return", 0⟩, ⟨.punct, 8, ascii "*", 0⟩,
    ⟨.punct, 9, ascii "(", 0⟩, ⟨.ident, 10, ascii "p", 0⟩, ⟨.punct, 11, ascii "+", 0⟩,
    ⟨.num, 12, ascii "1", 1⟩, ⟨.punct, 13, ascii ")", 0⟩, ⟨.punct, 14, ascii "=", 0⟩,
    ⟨.ident, 15, ascii "f", 0⟩, ⟨.punct, 16, ascii "(", 0⟩, ⟨.ident, 17, ascii "p", 0⟩,
    ⟨.punct, 18, ascii "<", 0⟩, ⟨.num, 19, ascii "1", 1⟩, ⟨.punct, 20, ascii ",", 0⟩,
    ⟨.num, 21, ascii "2", 2⟩, ⟨.punct, 22, ascii ")", 0⟩, ⟨.punct, 23, ascii ";", 0⟩,
    ⟨.punct, 24, ascii "\x7d", 0⟩, .eof 25]

def storedCall : Expr :=
  .assign 14 (.deref 8 (.binary 11 .add (.var 10 0) (.num 12 1)))
    (.call 15 (ascii "f") [.binary 18 .lt (.var 17 0) (.num 19 1), .num 21 2])

def storedCallBlock : Function where
  name := []
  pos := 0
  locals := [⟨ascii "p", .int, 10⟩]
  body := some { pos := 0, stmts := [.ret 1 storedCall] }

def storedCallTree : Program where
  topLevel := true
  funcs := [storedCallBlock]
  req := { lt := true }

/-- The call takes two values and gives one, which is stored and loaded again. -/
theorem adds_of_storedCall :
    ∃ code, value (context storedCallTree storedCallBlock) storedCall = .ok code ∧
      ∀ m, Adds m [⟨ascii "le", 2⟩, ⟨ascii "f", 2⟩] code 1 := by
  have hsrc : Token.scan (ascii "\x7breturn *(p+1)=f(p<1,2);\x7d") = .ok storedCallTokens := by
    decide +kernel
  have hp : Grammar.parse storedCallTokens {} = .ok storedCallTree := Grammar.parse_of_walk rfl
  have hx : storedCall ∈ storedCallBlock.nodes := List.mem_cons_self
  refine ⟨_, rfl, fun m => ?_⟩
  exact (adds_of_parse hsrc hp List.mem_cons_self hx m).1 _ rfl

end Lowering

end StackC
