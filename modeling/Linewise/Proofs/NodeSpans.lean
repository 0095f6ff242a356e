import Mathlib.Logic.Relation
import Linewise.Proofs.Locality
import Linewise.Proofs.StatementLines

namespace Linewise

def Expr.children : Expr → List Expr
  | literal _ | var _ => []
  | assignment _ target value => [var target, value]
  | binary _ left right => [left, right]
  | unary _ operand => [operand]
  | call callee _ arguments _ => callee :: arguments
  | index target _ i _ => [target, i]
  | group _ inner _ => [inner]

def Construct.children : Construct → List Construct
  | expression e => e.children.map expression
  | returnStatement _ value => value.toList.map expression
  | openBrace _ | closeBrace _ | function _ | passStatement _ | breakStatement _ => []

def Program.HasNode (p : Program) (n : Construct) : Prop :=
  ∃ c ∈ p.constructs, Relation.ReflTransGen (fun n m : Construct ↦ m ∈ n.children) c n

/-- The nodes take up parts of the pieces, one after the other, with other pieces in between. -/
inductive Apart : List Construct → List Piece → Prop
  | done (ps : List Piece) : Apart [] ps
  | skip (p : Piece) {cs : List Construct} {ps : List Piece} : Apart cs ps → Apart cs (p :: ps)
  | node (c : Construct) {cs : List Construct} {ps : List Piece} : Apart cs ps → Apart (c :: cs) (c.pieces ++ ps)

namespace Apart

variable {cs : List Construct} {ps : List Piece}

theorem append (h : Apart cs ps) (qs : List Piece) : Apart cs (ps ++ qs) := by
  induction h with
  | done ps => exact .done _
  | skip p _ ih => exact .skip p ih
  | node c _ ih =>
    rw [List.append_assoc]
    exact .node c ih

theorem single (c : Construct) : Apart [c] c.pieces := by
  have h := Apart.node c (.done [])
  rwa [List.append_nil] at h

theorem arguments (args : List Expr) :
    Apart (args.map Construct.expression) (Expr.argumentPieces args) := by
  induction args with
  | nil => exact .done _
  | cons a args ih =>
    cases args with
    | nil => exact .single (.expression a)
    | cons b args =>
      rw [Expr.argumentPieces_cons (List.cons_ne_nil b args)]
      exact .node (.expression a) (.skip _ ih)

theorem constructs (cs : List Construct) : Apart cs (cs.flatMap (·.pieces)) := by
  induction cs with
  | nil => exact .done _
  | cons c cs ih => exact .node c ih

end Apart

theorem Expr.apart_children (e : Expr) : Apart (e.children.map .expression) e.pieces := by
  cases e with
  | literal | var => exact .done _
  | assignment operator target value =>
    rw [pieces]
    have h := Apart.node (.expression (.var target)) (.skip (.kept operator) (.single (.expression value)))
    rwa [Construct.pieces, pieces] at h
  | binary operator left right =>
    rw [pieces]
    exact .node (.expression left) (.skip _ (.single (.expression right)))
  | unary operator operand =>
    rw [pieces]
    exact .skip _ (.single (.expression operand))
  | call callee openToken arguments closeToken =>
    rw [pieces]
    exact .node (.expression callee) (.skip _ ((Apart.arguments arguments).append _))
  | index target openToken i closeToken =>
    rw [pieces]
    exact .node (.expression target) (.skip _ ((Apart.single (.expression i)).append _))
  | group openToken inner closeToken =>
    rw [pieces]
    exact .skip _ ((Apart.single (.expression inner)).append _)

theorem Construct.apart_children (c : Construct) : Apart c.children c.pieces := by
  cases c with
  | expression e => exact e.apart_children
  | openBrace | closeBrace | function | passStatement | breakStatement => exact .done _
  | returnStatement keyword value =>
    cases value with
    | none => exact .done _
    | some e => exact .skip _ (.single (.expression e))

/-- The nodes take up stretches of the tokens, and none begins before the last one has ended. -/
theorem Apart.pairwise {cs : List Construct} {ps : List Piece} {ts : List Token} (h : Apart cs ps)
    (hc : Covers ps ts) (ho : Successive ts) :
    (∀ c ∈ cs, ∃ own, own <:+: ts ∧ Covers c.pieces own) ∧
      cs.Pairwise fun c d ↦ c.span.stop.Before d.span.start := by
  induction h generalizing ts with
  | done => exact ⟨fun c hc ↦ (List.not_mem_nil hc).elim, .nil⟩
  | skip p _ ih =>
    obtain ⟨t, us, rfl, -, hus⟩ := hc.of_cons
    obtain ⟨hown, hpairwise⟩ := ih hus ho.tail
    refine ⟨fun c hc ↦ ?_, hpairwise⟩
    obtain ⟨own, hwithin, hcovers⟩ := hown c hc
    exact ⟨own, hwithin.trans (List.suffix_cons t us).isInfix, hcovers⟩
  | @node c cs ps _ ih =>
    obtain ⟨us, vs, rfl, hus, hvs⟩ := hc.of_append
    obtain ⟨hown, hpairwise⟩ := ih hvs ho.right
    refine ⟨fun d hd ↦ ?_, .cons (fun d hd ↦ ?_) hpairwise⟩
    · rcases List.mem_cons.1 hd with rfl | hd
      · exact ⟨us, (List.prefix_append us vs).isInfix, hus⟩
      · obtain ⟨own, hwithin, hcovers⟩ := hown d hd
        exact ⟨own, hwithin.trans (List.suffix_append us vs).isInfix, hcovers⟩
    · obtain ⟨own, hwithin, hcovers⟩ := hown d hd
      obtain ⟨t, ht, hstop⟩ := (c.span_covers hus ho.left).stop
      obtain ⟨u, hu, hstart⟩ := (d.span_covers hcovers (ho.right.sublist hwithin.sublist)).start
      rw [hstop, hstart]
      exact ho.before (List.mem_of_getLast? ht) (hwithin.subset (List.mem_of_head? hu))

theorem Successive.first_le_start {ts : List Token} (h : Successive ts) {first t : Token}
    (hfirst : first ∈ ts.head?) (ht : t ∈ ts) : first.span.start ≤ t.span.start := by
  obtain ⟨ts, rfl⟩ := List.head?_eq_some_iff.1 hfirst
  rcases List.mem_cons.1 ht with rfl | ht
  · exact Position.le_refl _
  · have hbefore := List.rel_of_pairwise_cons h.pairwise ht
    exact Position.le_trans (h.ordered first List.mem_cons_self) hbefore.le

theorem Span.Covers.inside {s s' : Span} {ts own : List Token} (h : s.Covers ts) (h' : s'.Covers own)
    (hwithin : own <:+: ts) (ho : Successive ts) : s.start ≤ s'.start ∧ s'.stop ≤ s.stop := by
  obtain ⟨⟨first, hfirst, hstart⟩, last, hlast, hstop⟩ := h
  obtain ⟨⟨first', hfirst', hstart'⟩, last', hlast', hstop'⟩ := h'
  rw [hstart, hstart', hstop, hstop']
  exact ⟨ho.first_le_start hfirst (hwithin.subset (List.mem_of_head? hfirst')),
    ho.stop_le_last (hwithin.subset (List.mem_of_getLast? hlast')) hlast⟩

/-- The node takes up a stretch of the tokens, its span is the extent of this stretch, and the nodes right below
it have their places inside, one after the other. -/
structure Construct.Fits (n : Construct) (tokens : List Token) : Prop where
  extent : ∃ own, own <:+: tokens ∧ Covers n.pieces own ∧ n.span.Covers own
  inside : ∀ d ∈ n.children, n.span.start ≤ d.span.start ∧ d.span.stop ≤ n.span.stop
  apart : n.children.Pairwise fun d d' ↦ d.span.stop.Before d'.span.start

theorem Construct.fits {n : Construct} {tokens own : List Token} (hwithin : own <:+: tokens)
    (hc : Covers n.pieces own) (ho : Successive tokens) : n.Fits tokens := by
  have howned := ho.sublist hwithin.sublist
  have hspan := n.span_covers hc howned
  obtain ⟨hchildren, hpairwise⟩ := n.apart_children.pairwise hc howned
  refine ⟨⟨own, hwithin, hc, hspan⟩, fun d hd ↦ ?_, hpairwise⟩
  obtain ⟨part, hpart, hcovers⟩ := hchildren d hd
  exact hspan.inside (d.span_covers hcovers (howned.sublist hpart.sublist)) hpart howned

/-- Every node of a program takes up a stretch of the tokens of the program. -/
theorem Program.HasNode.exists_own {p : Program} {n : Construct} {tokens : List Token} (h : p.HasNode n)
    (hc : Covers p.pieces tokens) (ho : Successive tokens) : ∃ own, own <:+: tokens ∧ Covers n.pieces own := by
  obtain ⟨c, hmem, hbelow⟩ := h
  induction hbelow with
  | refl => exact ((Apart.constructs p.constructs).pairwise hc ho).1 c hmem
  | @tail n m _ hm ih =>
    obtain ⟨own, hwithin, hcovers⟩ := ih
    obtain ⟨hchildren, -⟩ := n.apart_children.pairwise hcovers (ho.sublist hwithin.sublist)
    obtain ⟨part, hpart, hpieces⟩ := hchildren m hm
    exact ⟨part, hpart.trans hwithin, hpieces⟩

theorem Span.merge_self (s : Span) : s.merge s = s := by
  rw [merge, Position.min_eq_left (Position.le_refl _), Position.max_eq_right (Position.le_refl _)]

/-- The span of a program reaches from its first token to its last. -/
theorem Program.span?_covers {p : Program} {tokens : List Token} (hc : Covers p.pieces tokens)
    (ho : Successive tokens) : (p.span? = none ↔ tokens = []) ∧ ∀ span ∈ p.span?, span.Covers tokens := by
  obtain ⟨cs⟩ := p
  rcases List.eq_nil_or_concat' cs with rfl | ⟨front, last, rfl⟩
  · obtain rfl := List.forall₂_nil_left_iff.1 hc
    exact ⟨⟨fun _ ↦ rfl, fun _ ↦ rfl⟩, fun span hs ↦ absurd hs (Option.not_mem_none span)⟩
  obtain ⟨between, own, rfl, hbetween, hlast⟩ : ∃ between own, tokens = between ++ own ∧
      Covers (front.flatMap (·.pieces)) between ∧ Covers last.pieces own := by
    rw [Program.pieces, List.flatMap_append, List.flatMap_singleton] at hc
    exact hc.of_append
  have hspan := last.span_covers hlast ho.right
  have hne : between ++ own ≠ [] := by
    obtain ⟨⟨t, ht, -⟩, -⟩ := hspan
    exact List.append_ne_nil_of_right_ne_nil between (List.ne_nil_of_mem (List.mem_of_head? ht))
  cases front with
  | nil =>
    cases hbetween
    refine ⟨⟨fun h ↦ absurd h (Option.some_ne_none _), fun h ↦ absurd h hne⟩, fun span hs ↦ ?_⟩
    obtain rfl : last.span.merge last.span = span := Option.some.inj hs
    rwa [Span.merge_self]
  | cons first front =>
    have hsome : (Program.mk (first :: front ++ [last])).span? = some (first.span.merge last.span) := by
      rw [span?, List.getLast?_concat]
      rfl
    refine ⟨⟨fun h ↦ absurd (hsome.symm.trans h) (Option.some_ne_none _), fun h ↦ absurd h hne⟩, fun span hs ↦ ?_⟩
    obtain rfl : first.span.merge last.span = span := Option.some.inj (hsome.symm.trans hs)
    obtain ⟨us, vs, rfl, hfirst, -⟩ := Covers.of_append hbetween
    rw [List.append_assoc] at ho ⊢
    exact (first.span_covers hfirst ho.left).merge hspan vs ho

/-- The spans of an accepted text. Every node reaches from its first token to its last, around the nodes right
below it, which are apart and in order like the constructs of the program; and the program reaches from the first
token of the text to the last. -/
theorem parse_spans {source : String} {program : Program} (h : parse source = .ok program) :
    ∃ tokens, tokenize source = .ok tokens ∧
      (∀ n, program.HasNode n → n.Fits tokens.toList) ∧
      program.constructs.Pairwise (fun c d ↦ c.span.stop.Before d.span.start) ∧
      (program.span? = none ↔ tokens.toList = []) ∧ ∀ span ∈ program.span?, span.Covers tokens.toList := by
  obtain ⟨tokens, htokens, hc⟩ := exists_covers_of_parse h
  have ho := successive_of_tokenize htokens
  refine ⟨tokens, htokens, fun n hn ↦ ?_, ?_, Program.span?_covers hc ho⟩
  · obtain ⟨own, hwithin, hcovers⟩ := hn.exists_own hc ho
    exact n.fits hwithin hcovers ho
  · exact ((Apart.constructs program.constructs).pairwise hc ho).2

theorem parse_spans_nested : ∃ source program n tokens,
    source = "fn f(a: b) \x7b\nreturn g(é,\n *p = -2)[i] # ü\n\x7d" ∧ parse source = .ok program ∧
      program.HasNode n ∧ n.span = ⟨⟨2, 7⟩, ⟨3, 8⟩⟩ ∧
      n.children.map (·.span) = [.onLine 2 7 7, .onLine 2 9 9, .onLine 3 1 7] ∧
      tokenize source = .ok tokens ∧ n.Fits tokens.toList ∧
      program.constructs.Pairwise (fun c d ↦ c.span.stop.Before d.span.start) ∧
      (program.span? = none ↔ tokens.toList = []) ∧ ∀ span ∈ program.span?, span.Covers tokens.toList := by
  have hrun : ((parse "fn f(a: b) \x7b\nreturn g(é,\n *p = -2)[i] # ü\n\x7d").toOption.bind fun program ↦
      program.constructs[1]?.bind fun c ↦ c.children.head?.bind fun m ↦ m.children.head?).map
        (fun n ↦ (n.span, n.children.map (·.span))) =
      some (⟨⟨2, 7⟩, ⟨3, 8⟩⟩, [.onLine 2 7 7, .onLine 2 9 9, .onLine 3 1 7]) := by decide +kernel
  obtain ⟨n, hrun, hn⟩ := Option.map_eq_some_iff.1 hrun
  obtain ⟨hspan, hchildren⟩ := Prod.mk.inj hn
  obtain ⟨program, hprogram, hrun⟩ := Option.bind_eq_some_iff.1 hrun
  obtain ⟨c, hc, hrun⟩ := Option.bind_eq_some_iff.1 hrun
  obtain ⟨m, hm, hn⟩ := Option.bind_eq_some_iff.1 hrun
  cases hp : parse "fn f(a: b) \x7b\nreturn g(é,\n *p = -2)[i] # ü\n\x7d" with
  | error e => simp [hp, Except.toOption] at hprogram
  | ok p =>
    obtain rfl : p = program := by simpa [hp, Except.toOption] using hprogram
    have hnode : p.HasNode n := ⟨c, List.mem_of_getElem? hc,
      (Relation.ReflTransGen.single (List.mem_of_head? hm)).tail (List.mem_of_head? hn)⟩
    obtain ⟨tokens, htokens, hfits, hrest⟩ := parse_spans hp
    exact ⟨_, p, n, tokens, rfl, hp, hnode, hspan, hchildren, htokens, hfits n hnode, hrest⟩

end Linewise
