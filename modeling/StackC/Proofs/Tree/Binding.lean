import StackC.Proofs.Reading.Mentions

/-! Names and locals. The locals of a parsed function are the names that its tokens mention, each
from its first mention on, and every variable stands for the local of its own spelling. -/
namespace StackC

/-- The names mentioned between the braces of a function. -/
def Function.mentions (toks : List Token) (f : Function) : List Token.Mention :=
  f.body.elim [] fun b => Token.blockMentions toks b.pos

theorem Function.sublist_mentions (toks : List Token) (f : Function) :
    ((f.mentions toks).map Token.Mention.token).Sublist toks := by
  unfold mentions
  cases f.body with
  | none => exact List.nil_sublist toks
  | some b => exact Token.sublist_blockMentions toks b.pos

/-- How the names in these tokens are bound in a function. -/
structure Function.Binds (toks : List Token) (f : Function) : Prop where
  distinct : (f.locals.map Local.name).Nodup
  unreserved : scratchName ∉ f.locals.map Local.name
  increasing : f.locals.Pairwise (·.pos < ·.pos)
  /-- A local begins at the first mention of its name. -/
  first : ∀ v ∈ f.locals, ∃ m, (f.mentions toks).find? (·.token.lit == v.name) = some m ∧
    m.token.pos = v.pos
  every : ∀ m ∈ f.mentions toks, m.token.lit ∈ f.locals.map Local.name
  /-- A variable has a local, named as the token where it stands. -/
  named : ∀ pos i, .var pos i ∈ f.nodes → ∃ v, getLocal? f.locals i = some v ∧
    Token.textAt? toks pos = some v.name
  alike : ∀ pos i pos' i', .var pos i ∈ f.nodes → .var pos' i' ∈ f.nodes →
    (i = i' ↔ Token.textAt? toks pos = Token.textAt? toks pos')

/-- Locals that differ in what they are told apart by have different numbers. -/
theorem getLocal?_inj {α : Type} (key : Local → α) {locals : List Local} {i j : Int} {v w : Local}
    (hd : (locals.map key).Nodup) (hi : getLocal? locals i = some v)
    (hj : getLocal? locals j = some w) (h : key v = key w) : i = j := by
  match i, j with
  | .negSucc _, _ => cases hi
  | _, .negSucc _ => cases hj
  | .ofNat a, .ofNat b =>
    have ha : (locals.map key)[a]? = some (key v) := by
      rw [List.getElem?_map]
      exact congrArg (Option.map key) hi
    have hb : (locals.map key)[b]? = some (key v) := by
      rw [List.getElem?_map, h]
      exact congrArg (Option.map key) hj
    have hlt := (List.getElem?_eq_some_iff.mp ha).1
    rw [(List.getElem?_inj hlt hd).mp (ha.trans hb.symm)]

namespace Grammar
open Token (Mention enter mentionsFrom)

section Parsed

variable {src : Bytes} {toks : List Token} {req : Requirements} {p : Program} {f : Function}
variable (hsrc : Token.scan src = .ok toks) (h : parse toks req = .ok p) (hf : f ∈ p.funcs)
include hsrc h hf

/-- The body of a function is read as a block from where its names are mentioned. -/
theorem exists_body_of_parse : ∃ s stmts s', ReadsStmt .block s stmts s' ∧ s.locals = [] ∧
    f.locals = s'.locals ∧ f.nodes = Stmt.allNodes stmts ∧ s.ahead.Pairwise (·.pos < ·.pos) ∧
    f.mentions toks = mentionsFrom 0 .outside s.ahead := by
  have hinc : (Token.beforeEnd toks).Pairwise (·.pos < ·.pos) :=
    (Token.places_of_scan hsrc).increasing.sublist (List.takeWhile_sublist _)
  obtain ⟨place, empty, reads, locals, body⟩ := bodyIn_of_parse h hf
  refine ⟨_, _, _, reads, empty, locals, ?_, ?_, ?_⟩
  · rw [Function.nodes, body]
    rfl
  · rw [place, List.pairwise_append, List.pairwise_cons] at hinc
    exact hinc.2.1.2
  · rw [Function.mentions, body]
    exact Token.blockMentions_eq place hinc

/-- The locals of a function are entered for the names that its tokens mention. -/
theorem enters_of_parse : Enters [] (f.mentions toks) f.locals f.nodes := by
  obtain ⟨s, stmts, s', reads, empty, locals, nodes, -, hm⟩ := exists_body_of_parse hsrc h hf
  obtain ⟨o, hc, he⟩ := exists_covers_of_readsStmt reads
  rw [empty, ← locals, ← nodes, ← hc.outermost, ← hm] at he
  exact he

/-- A local begins at the first mention of its name. -/
theorem find?_mentions_of_parse {v : Local} (hv : v ∈ f.locals) :
    ∃ m, (f.mentions toks).find? (·.token.lit == v.name) = some m ∧ m.token.pos = v.pos := by
  have he := (enters_of_parse hsrc h hf).enters
  have hm : (v.name, v.pos) ∈ table f.locals := List.mem_map_of_mem hv
  rw [he] at hm
  obtain hn | ⟨-, t, ht, hp⟩ := Token.mem_or_find?_of_mem_foldl_enter hm
  · cases hn
  · rw [List.find?_map, Option.map_eq_some_iff] at ht
    obtain ⟨m, hm, rfl⟩ := ht
    exact ⟨m, hm, hp⟩

private theorem pairwise_pos_of_parse : f.locals.Pairwise (·.pos < ·.pos) := by
  have hinc := (Token.places_of_scan hsrc).increasing.sublist (f.sublist_mentions toks)
  have ht : (table f.locals).Pairwise (·.2 < ·.2) := by
    rw [(enters_of_parse hsrc h hf).enters]
    exact Token.pairwise_foldl_enter hinc .nil fun e he => absurd he List.not_mem_nil
  rw [table, List.pairwise_map] at ht
  exact ht

/-- A variable has a local, named as the token where it stands. -/
theorem exists_local_of_parse {pos i : Int} (hm : .var pos i ∈ f.nodes) :
    ∃ v, getLocal? f.locals i = some v ∧ Token.textAt? toks pos = some v.name := by
  obtain ⟨t, ht, rfl, hn⟩ := (enters_of_parse hsrc h hf).spells pos i hm
  obtain ⟨v, hv, hname⟩ := Option.map_eq_some_iff.mp hn
  have hmem := (f.sublist_mentions toks).subset ht
  refine ⟨v, hv, ?_⟩
  rw [Token.textAt?_of_mem (Token.places_of_scan hsrc).increasing hmem, hname]

end Parsed

/-- Every name in a parsed function is bound. -/
theorem binds_of_parse {src : Bytes} {toks : List Token} {req : Requirements} {p : Program}
    (hsrc : Token.scan src = .ok toks) (h : parse toks req = .ok p) :
    ∀ f ∈ p.funcs, f.Binds toks := by
  intro f hf
  have hproper := (proper_of_parse hsrc h).functions f hf
  have named := fun pos i (hm : .var pos i ∈ f.nodes) => exists_local_of_parse hsrc h hf hm
  refine ⟨hproper.distinct, hproper.unreserved, pairwise_pos_of_parse hsrc h hf,
    fun v hv => find?_mentions_of_parse hsrc h hf hv, ?_, named, ?_⟩
  · intro m hm
    rw [← names_table, (enters_of_parse hsrc h hf).enters, Token.mem_names_foldl_enter]
    exact .inr ⟨m.token, List.mem_map_of_mem hm, rfl⟩
  · intro pos i pos' i' hi hi'
    obtain ⟨v, hv, ht⟩ := named pos i hi
    obtain ⟨v', hv', ht'⟩ := named pos' i' hi'
    rw [ht, ht', Option.some.injEq]
    constructor
    · rintro rfl
      rw [hv] at hv'
      rw [Option.some.inj hv']
    · exact getLocal?_inj Local.name hproper.distinct hv hv'

/-- The tokens of a block with one comma inside a call and one between declarators. -/
def twoCommas : List Token :=
  [⟨.punct, 0, ascii "\x7b", 0⟩, ⟨.keyword, 1, ascii "int", 0⟩, ⟨.punct, 5, ascii "*", 0⟩,
    ⟨.ident, 6, ascii "a", 0⟩, ⟨.punct, 7, ascii "=", 0⟩, ⟨.ident, 8, ascii "f", 0⟩,
    ⟨.punct, 9, ascii "(", 0⟩, ⟨.ident, 10, ascii "b", 0⟩, ⟨.punct, 11, ascii ",", 0⟩,
    ⟨.ident, 12, ascii "a", 0⟩, ⟨.punct, 13, ascii ")", 0⟩, ⟨.punct, 14, ascii ",", 0⟩,
    ⟨.ident, 15, ascii "c", 0⟩, ⟨.punct, 16, ascii ";", 0⟩, ⟨.punct, 17, ascii "\x7d", 0⟩, .eof 18]

theorem binds_of_twoCommas :
    Token.scan (ascii "\x7bint *a=f(b,a),c;\x7d") = .ok twoCommas ∧
      ∃ p f, parse twoCommas {} = .ok p ∧ f ∈ p.funcs ∧ f.Binds twoCommas ∧
        f.locals = [⟨ascii "a", .ptr .int, 6⟩, ⟨ascii "b", .int, 10⟩, ⟨ascii "c", .int, 15⟩] := by
  have hsrc : Token.scan (ascii "\x7bint *a=f(b,a),c;\x7d") = .ok twoCommas := by decide +kernel
  have hp : (parse twoCommas {}).map (fun p => p.funcs.map Function.locals) =
      .ok [[⟨ascii "a", .ptr .int, 6⟩, ⟨ascii "b", .int, 10⟩, ⟨ascii "c", .int, 15⟩]] := by cbv
  obtain ⟨p, hp, hl⟩ := Outcome.map_eq_ok.mp hp
  obtain ⟨f, hf, hl⟩ := List.map_eq_singleton_iff.mp hl
  have hm : f ∈ p.funcs := by
    rw [hf]
    exact List.mem_singleton_self f
  exact ⟨hsrc, p, f, hp, hm, binds_of_parse hsrc hp f hm, hl⟩

end Grammar

end StackC
