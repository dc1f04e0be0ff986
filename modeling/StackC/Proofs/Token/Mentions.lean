import StackC.Proofs.Reading.Basic
import StackC.Proofs.Token.Places

/-! Where names are mentioned inside a function, read off its tokens alone: behind the stars of a
declarator, or as an identifier that no parenthesis follows. -/
namespace StackC.Token

/-- A token that names a local. A declarator has stars before its name. -/
structure Mention where
  token : Token
  stars : Option Nat := none
  deriving DecidableEq

inductive Context
  /-- No declaration. -/
  | outside
  /-- A declarator, behind some stars and before its name. -/
  | declarator (stars : Nat)
  /-- A declarator behind its name, inside some parentheses. -/
  | value (depth : Nat)

namespace Context

def next (t : Token) : Context → Context
  | outside => if t.is (ascii "int") then declarator 0 else outside
  | declarator n =>
    if t.is (ascii "*") then declarator (n + 1)
    else if t.kind == .ident then value 0
    else outside
  | value depth =>
    if t.is (ascii "(") then value (depth + 1)
    else if t.is (ascii ")") then value (depth - 1)
    else if t.is (ascii ",") && depth == 0 then declarator 0
    else if t.is (ascii ";") then outside
    else value depth

/-- The name that a token mentions, if it does, from what stands behind it. -/
def mention? (t : Token) (rest : List Token) : Context → Option Mention
  | declarator n => if t.kind == .ident then some ⟨t, some n⟩ else none
  | _ =>
    if t.kind == .ident && !rest.head?.any (·.is (ascii "(")) then some ⟨t, none⟩ else none

end Context

/-- The names mentioned up to the brace that closes a block, from inside some more of them. -/
def mentionsFrom : Nat → Context → List Token → List Mention
  | _, _, [] => []
  | depth, c, t :: rest =>
    if t.is (ascii "\x7b") then mentionsFrom (depth + 1) c rest
    else if t.is (ascii "\x7d") then
      match depth with
      | 0 => []
      | depth + 1 => mentionsFrom depth c rest
    else (c.mention? t rest).toList ++ mentionsFrom depth (c.next t) rest

/-- The names mentioned in the block whose brace stands at an offset. -/
def blockMentions (toks : List Token) (brace : Int) : List Mention :=
  mentionsFrom 0 .outside (((beforeEnd toks).dropWhile (·.pos != brace)).drop 1)

def textAt? (toks : List Token) (pos : Int) : Option Bytes :=
  (toks.find? (·.pos == pos)).map Token.lit

/-- A brace that stands behind all tokens before it is found. -/
theorem blockMentions_eq {toks before rest : List Token} {brace : Token}
    (hw : beforeEnd toks = before ++ brace :: rest)
    (hp : (beforeEnd toks).Pairwise (·.pos < ·.pos)) :
    blockMentions toks brace.pos = mentionsFrom 0 .outside rest := by
  rw [hw] at hp
  have hlt : ∀ t ∈ before, (t.pos != brace.pos) = true := by
    intro t ht
    have := (List.pairwise_append.mp hp).2.2 t ht brace List.mem_cons_self
    rw [bne_iff_ne]
    omega
  rw [blockMentions, hw, List.dropWhile_append_of_pos hlt]
  simp

/-- Each token is the one at its offset. -/
theorem textAt?_of_mem {toks : List Token} {t : Token} (hp : toks.Pairwise (·.pos < ·.pos))
    (ht : t ∈ toks) : textAt? toks t.pos = some t.lit := by
  obtain ⟨before, rest, rfl⟩ := List.append_of_mem ht
  have hlt : ∀ u ∈ before, (u.pos == t.pos) = false := by
    intro u hu
    have := (List.pairwise_append.mp hp).2.2 u hu t List.mem_cons_self
    rw [beq_eq_false_iff_ne]
    omega
  have hn : before.find? (·.pos == t.pos) = none := by
    rw [List.find?_eq_none]
    exact fun u hu => by simp [hlt u hu]
  rw [textAt?, List.find?_append, hn]
  simp

private theorem token_of_mention? {c : Context} {t : Token} {rest : List Token} {m : Mention}
    (h : c.mention? t rest = some m) : m.token = t ∧ t.kind = .ident := by
  unfold Context.mention? at h
  split at h <;> split at h <;> cases h <;> simp_all

/-- Mentions are tokens, in their order. -/
theorem sublist_mentionsFrom (depth : Nat) (c : Context) (toks : List Token) :
    ((mentionsFrom depth c toks).map Mention.token).Sublist toks := by
  fun_induction mentionsFrom depth c toks with
  | case1 => exact List.Sublist.slnil
  | case2 depth c t rest hb ih => exact ih.cons t
  | case3 c t rest hb he => exact List.nil_sublist _
  | case4 c t rest hb he depth ih => exact ih.cons t
  | case5 depth c t rest hb he ih =>
    rw [List.map_append]
    cases hm : c.mention? t rest with
    | none => exact ih.cons t
    | some m =>
      rw [Option.toList_some, List.map_singleton, (token_of_mention? hm).1]
      exact ih.cons_cons t

theorem sublist_blockMentions (toks : List Token) (brace : Int) :
    ((blockMentions toks brace).map Mention.token).Sublist toks :=
  (sublist_mentionsFrom 0 .outside _).trans
    (((List.drop_sublist 1 _).trans (List.dropWhile_sublist _)).trans (List.takeWhile_sublist _))

namespace Context

/-- Names are used here, not declared. -/
def isCalm : Context → Bool
  | declarator _ => false
  | _ => true

/-- The same inside one more pair of parentheses. -/
def deeper : Context → Context
  | value depth => value (depth + 1)
  | c => c

end Context

/-- The tokens that tell contexts apart. -/
def contextMarks : List Bytes :=
  [ascii "int", ascii "(", ascii ")", ascii ",", ascii ";", ascii "\x7b", ascii "\x7d"]

/-- The token leaves the context as it is. -/
def Quiet (t : Token) : Prop := ∀ lit ∈ contextMarks, t.is lit = false

section Steps

variable {t : Token} {c : Context} {depth : Nat} {rest : List Token} {lit : Bytes}

theorem quiet_of_is (h : t.is lit) (hl : lit ∉ contextMarks) : Quiet t :=
  fun _ hm => is_eq_false_of_is h fun he => hl (he ▸ hm)

theorem quiet_of_ident (h : t.kind = .ident) : Quiet t := fun lit _ => is_eq_false_of_ident h lit

theorem quiet_of_num (h : t.kind = .num) : Quiet t := fun lit _ => is_eq_false_of_num h lit

theorem kind_ne_ident (h : t.is lit) : t.kind ≠ .ident := by
  intro hk
  rw [is_eq_false_of_ident hk] at h
  cases h

theorem Quiet.next (h : Quiet t) (hc : c.isCalm) : c.next t = c := by
  simp only [Quiet, contextMarks, List.forall_mem_cons] at h
  cases c with
  | declarator n => cases hc
  | outside => simp [Context.next, h]
  | value d => simp [Context.next, h]

theorem mention?_eq_none (h : t.kind ≠ .ident) : c.mention? t rest = none := by
  cases c <;> simp [Context.mention?, h]

theorem mentionsFrom_open (h : t.is (ascii "\x7b")) :
    mentionsFrom depth c (t :: rest) = mentionsFrom (depth + 1) c rest := by
  simp [mentionsFrom, h]

theorem mentionsFrom_close (h : t.is (ascii "\x7d")) :
    mentionsFrom (depth + 1) c (t :: rest) = mentionsFrom depth c rest := by
  have hb : t.is (ascii "\x7b") = false := is_eq_false_of_is h (by decide)
  simp [mentionsFrom, h, hb]

theorem mentionsFrom_end (h : t.is (ascii "\x7d")) : mentionsFrom 0 c (t :: rest) = [] := by
  have hb : t.is (ascii "\x7b") = false := is_eq_false_of_is h (by decide)
  simp [mentionsFrom, h, hb]

/-- What a token other than a brace does. -/
theorem mentionsFrom_cons (hb : t.is (ascii "\x7b") = false) (he : t.is (ascii "\x7d") = false) :
    mentionsFrom depth c (t :: rest) =
      (c.mention? t rest).toList ++ mentionsFrom depth (c.next t) rest := by
  simp [mentionsFrom, hb, he]

theorem mentionsFrom_step (h : t.is lit)
    (hl : lit ≠ ascii "\x7b" ∧ lit ≠ ascii "\x7d") :
    mentionsFrom depth c (t :: rest) = mentionsFrom depth (c.next t) rest := by
  rw [mentionsFrom_cons (is_eq_false_of_is h hl.1) (is_eq_false_of_is h hl.2),
    mention?_eq_none (kind_ne_ident h)]
  rfl

theorem Quiet.mentionsFrom (h : Quiet t) (hc : c.isCalm) (hk : t.kind ≠ .ident) :
    mentionsFrom depth c (t :: rest) = Token.mentionsFrom depth c rest := by
  rw [mentionsFrom_cons (h _ (by decide)) (h _ (by decide)), mention?_eq_none hk, h.next hc]
  rfl

/-- An identifier mentions a local unless it is called. -/
theorem mentionsFrom_ident (h : t.kind = .ident) (hc : c.isCalm) :
    mentionsFrom depth c (t :: rest) =
      (if rest.head?.any (·.is (ascii "(")) then [] else [⟨t, none⟩]) ++
        mentionsFrom depth c rest := by
  have hq := quiet_of_ident h
  rw [mentionsFrom_cons (hq _ (by decide)) (hq _ (by decide)), hq.next hc]
  cases c with
  | declarator n => cases hc
  | outside => cases hr : rest.head?.any (·.is (ascii "(")) <;> simp [Context.mention?, h, hr]
  | value d => cases hr : rest.head?.any (·.is (ascii "(")) <;> simp [Context.mention?, h, hr]

theorem mentionsFrom_opens (h : t.is (ascii "(")) (hc : c.isCalm) :
    mentionsFrom depth c (t :: rest) = mentionsFrom depth c.deeper rest := by
  rw [mentionsFrom_step h (by decide)]
  have hi : t.is (ascii "int") = false := is_eq_false_of_is h (by decide)
  cases c with
  | declarator n => cases hc
  | outside => simp [Context.next, Context.deeper, hi]
  | value d => simp [Context.next, Context.deeper, h]

theorem mentionsFrom_closes (h : t.is (ascii ")")) (hc : c.isCalm) :
    mentionsFrom depth c.deeper (t :: rest) = mentionsFrom depth c rest := by
  rw [mentionsFrom_step h (by decide)]
  have ho : t.is (ascii "(") = false := is_eq_false_of_is h (by decide)
  have hi : t.is (ascii "int") = false := is_eq_false_of_is h (by decide)
  cases c with
  | declarator n => cases hc
  | outside => simp [Context.next, Context.deeper, hi]
  | value d => simp [Context.next, Context.deeper, h, ho]

/-- A comma inside parentheses does not end a declarator. -/
theorem mentionsFrom_comma (h : t.is (ascii ",")) (hc : c.isCalm) :
    mentionsFrom depth c.deeper (t :: rest) = mentionsFrom depth c.deeper rest := by
  rw [mentionsFrom_step h (by decide)]
  have ho : t.is (ascii "(") = false := is_eq_false_of_is h (by decide)
  have hi : t.is (ascii "int") = false := is_eq_false_of_is h (by decide)
  have he : t.is (ascii ")") = false := is_eq_false_of_is h (by decide)
  have hs : t.is (ascii ";") = false := is_eq_false_of_is h (by decide)
  cases c with
  | declarator n => cases hc
  | outside => simp [Context.next, Context.deeper, hi]
  | value d => simp [Context.next, Context.deeper, ho, he, hs]

end Steps

/-- A name enters a table of names and offsets once. -/
def enter (table : List (Bytes × Int)) (t : Token) : List (Bytes × Int) :=
  if (table.map Prod.fst).contains t.lit then table else table ++ [(t.lit, t.pos)]

section Table

variable {table : List (Bytes × Int)} {ts : List Token}

theorem enter_of_mem {t : Token} (h : t.lit ∈ table.map Prod.fst) : enter table t = table :=
  if_pos (List.contains_iff_mem.mpr h)

theorem enter_of_not_mem {t : Token} (h : t.lit ∉ table.map Prod.fst) :
    enter table t = table ++ [(t.lit, t.pos)] :=
  if_neg fun hc => h (List.contains_iff_mem.mp hc)

theorem mem_enter {t : Token} {e : Bytes × Int} :
    e ∈ enter table t ↔ e ∈ table ∨ e = (t.lit, t.pos) ∧ t.lit ∉ table.map Prod.fst := by
  by_cases h : t.lit ∈ table.map Prod.fst
  · rw [enter_of_mem h]
    simp [h]
  · rw [enter_of_not_mem h]
    simp [h]

theorem mem_names_enter {t : Token} {name : Bytes} :
    name ∈ (enter table t).map Prod.fst ↔ name ∈ table.map Prod.fst ∨ name = t.lit := by
  by_cases h : t.lit ∈ table.map Prod.fst
  · rw [enter_of_mem h]
    constructor
    · exact .inl
    · rintro (h' | rfl)
      · exact h'
      · exact h
  · rw [enter_of_not_mem h]
    simp

theorem prefix_foldl_enter (table : List (Bytes × Int)) (ts : List Token) :
    table <+: ts.foldl enter table := by
  induction ts generalizing table with
  | nil => exact List.prefix_rfl
  | cons t ts ih =>
    have ht : table <+: enter table t := by
      by_cases h : t.lit ∈ table.map Prod.fst
      · exact ⟨[], by rw [enter_of_mem h, List.append_nil]⟩
      · rw [enter_of_not_mem h]
        exact List.prefix_append _ _
    exact ht.trans (ih _)

/-- All names that are mentioned enter, and no others. -/
theorem mem_names_foldl_enter {name : Bytes} :
    name ∈ (ts.foldl enter table).map Prod.fst ↔
      name ∈ table.map Prod.fst ∨ ∃ t ∈ ts, t.lit = name := by
  induction ts generalizing table with
  | nil => simp
  | cons t ts ih =>
    rw [List.foldl_cons, ih, mem_names_enter, or_assoc]
    simp [eq_comm]

/-- An entry was there before, or stands for the first mention of its name. -/
theorem mem_or_find?_of_mem_foldl_enter {e : Bytes × Int} (h : e ∈ ts.foldl enter table) :
    e ∈ table ∨ e.1 ∉ table.map Prod.fst ∧
      ∃ t, ts.find? (·.lit == e.1) = some t ∧ t.pos = e.2 := by
  induction ts generalizing table with
  | nil => exact .inl h
  | cons t ts ih =>
    rw [List.foldl_cons] at h
    rcases ih h with he | ⟨hn, u, hu, hp⟩
    · rcases mem_enter.mp he with he | ⟨rfl, hn⟩
      · exact .inl he
      · exact .inr ⟨hn, t, by simp, rfl⟩
    · rw [mem_names_enter, not_or] at hn
      refine .inr ⟨hn.1, u, ?_, hp⟩
      have ht : (t.lit == e.1) = false := beq_eq_false_iff_ne.mpr (Ne.symm hn.2)
      rw [List.find?_cons, ht, hu]

/-- Entries stand in the order of the tokens. -/
theorem pairwise_foldl_enter (hts : ts.Pairwise (·.pos < ·.pos))
    (ht : table.Pairwise (·.2 < ·.2)) (hlt : ∀ e ∈ table, ∀ t ∈ ts, e.2 < t.pos) :
    (ts.foldl enter table).Pairwise (·.2 < ·.2) := by
  induction ts generalizing table with
  | nil => exact ht
  | cons t ts ih =>
    rw [List.pairwise_cons] at hts
    rw [List.foldl_cons]
    refine ih hts.2 ?_ ?_
    · by_cases h : t.lit ∈ table.map Prod.fst
      · rwa [enter_of_mem h]
      · rw [enter_of_not_mem h]
        refine List.pairwise_append.mpr ⟨ht, List.pairwise_singleton _ _, ?_⟩
        simpa using fun a b h => hlt (a, b) h t List.mem_cons_self
    · intro e he u hu
      rcases mem_enter.mp he with he | ⟨rfl, -⟩
      · exact hlt e he u (List.mem_cons_of_mem t hu)
      · exact hts.1 u hu

end Table

end StackC.Token
