import Mathlib.Data.List.Flatten
import Linewise.Proofs.NodeSpans
import Linewise.Proofs.Rounds
import Linewise.Proofs.UnreadText

namespace Linewise

mutual

/-- An expression and all the expressions inside it, each at the place of its own token. -/
def Expr.nodes : Expr → List Expr
  | .literal l => [.literal l]
  | .var v => [.var v]
  | .assignment operator target value => .var target :: .assignment operator target value :: value.nodes
  | .binary operator left right => left.nodes ++ .binary operator left right :: right.nodes
  | .unary operator operand => .unary operator operand :: operand.nodes
  | .call callee openToken arguments closeToken =>
    callee.nodes ++ .call callee openToken arguments closeToken :: Expr.argumentNodes arguments
  | .index target openToken i closeToken => target.nodes ++ .index target openToken i closeToken :: i.nodes
  | .group openToken inner closeToken => .group openToken inner closeToken :: inner.nodes

def Expr.argumentNodes : List Expr → List Expr
  | [] => []
  | argument :: arguments => argument.nodes ++ Expr.argumentNodes arguments

end

def Construct.nodes : Construct → List Construct
  | expression e => e.nodes.map expression
  | returnStatement keyword (some e) => returnStatement keyword (some e) :: e.nodes.map expression
  | c => [c]

def Program.nodes (p : Program) : List Construct := p.constructs.flatMap (·.nodes)

namespace Expr

theorem argumentNodes_eq (arguments : List Expr) : argumentNodes arguments = arguments.flatMap nodes := by
  induction arguments with
  | nil => rw [argumentNodes, List.flatMap_nil]
  | cons a arguments ih => rw [argumentNodes, ih, List.flatMap_cons]

def Within (m e : Expr) : Prop := Relation.ReflTransGen (fun e m : Expr ↦ m ∈ e.children) e m

theorem within_iff {m e : Expr} : m.Within e ↔ m = e ∨ ∃ child ∈ e.children, m.Within child :=
  Relation.ReflTransGen.cases_head_iff.trans (or_congr_left eq_comm)

theorem mem_nodes_of_children {m e : Expr} (h : m ∈ e.nodes ↔ m = e ∨ ∃ child ∈ e.children, m ∈ child.nodes)
    (hchildren : ∀ child ∈ e.children, (m ∈ child.nodes ↔ m.Within child)) : m ∈ e.nodes ↔ m.Within e := by
  rw [h, within_iff]
  exact or_congr_right (exists_congr fun child ↦ and_congr_right fun hmem ↦ hchildren child hmem)

theorem mem_nodes (e : Expr) {m : Expr} : m ∈ e.nodes ↔ m.Within e := by
  induction e with
  | literal | var => exact mem_nodes_of_children (by simp [nodes, children]) (by simp [children])
  | assignment operator target value ih =>
    have htarget : m ∈ (var target).nodes ↔ m.Within (var target) :=
      mem_nodes_of_children (by simp [nodes, children]) (by simp [children])
    exact mem_nodes_of_children (by simp [nodes, children, or_left_comm]) (by simpa [children] using ⟨htarget, ih⟩)
  | binary operator left right ih ih' =>
    exact mem_nodes_of_children (by simp [nodes, children, or_left_comm]) (by simpa [children] using ⟨ih, ih'⟩)
  | unary operator operand ih =>
    exact mem_nodes_of_children (by simp [nodes, children]) (by simpa [children] using ih)
  | call callee openToken arguments closeToken ih iha =>
    exact mem_nodes_of_children (by simp [nodes, argumentNodes_eq, children, or_left_comm])
      (by simpa [children] using ⟨ih, iha⟩)
  | index target openToken i closeToken ih ih' =>
    exact mem_nodes_of_children (by simp [nodes, children, or_left_comm]) (by simpa [children] using ⟨ih, ih'⟩)
  | group openToken inner closeToken ih =>
    exact mem_nodes_of_children (by simp [nodes, children]) (by simpa [children] using ih)

end Expr

def Construct.Within (n c : Construct) : Prop := Relation.ReflTransGen (fun n m : Construct ↦ m ∈ n.children) c n

namespace Construct

theorem within_iff {n c : Construct} : n.Within c ↔ n = c ∨ ∃ child ∈ c.children, n.Within child :=
  Relation.ReflTransGen.cases_head_iff.trans (or_congr_left eq_comm)

theorem within_expression {n : Construct} {e : Expr} :
    n.Within (expression e) ↔ ∃ m, m.Within e ∧ expression m = n := by
  constructor
  · intro h
    induction h with
    | refl => exact ⟨e, .refl, rfl⟩
    | tail _ hmem ih =>
      obtain ⟨m, hm, rfl⟩ := ih
      obtain ⟨child, hchild, rfl⟩ := List.mem_map.1 hmem
      exact ⟨child, hm.tail hchild, rfl⟩
  · rintro ⟨m, hm, rfl⟩
    exact hm.lift expression fun _ _ hchild ↦ List.mem_map_of_mem hchild

theorem mem_nodes_expression {n : Construct} {e : Expr} : n ∈ (expression e).nodes ↔ n.Within (expression e) := by
  rw [within_expression, nodes, List.mem_map]
  exact exists_congr fun m ↦ and_congr_left fun _ ↦ e.mem_nodes

theorem mem_nodes (c : Construct) {n : Construct} : n ∈ c.nodes ↔ n.Within c := by
  cases c with
  | expression e => exact mem_nodes_expression
  | returnStatement keyword value =>
    rw [within_iff]
    cases value with
    | none => simp [nodes, children]
    | some e =>
      have hvalue := mem_nodes_expression (n := n) (e := e)
      rw [nodes] at hvalue
      simp [nodes, children, hvalue]
  | openBrace | closeBrace | function | passStatement | breakStatement =>
    rw [within_iff]
    simp [nodes, children]

end Construct

theorem Program.mem_nodes {p : Program} {n : Construct} : n ∈ p.nodes ↔ p.HasNode n :=
  List.mem_flatMap.trans (exists_congr fun c ↦ and_congr_right fun _ ↦ c.mem_nodes)

def Construct.piece (n : Construct) : Piece := .kept n.token

def Expr.piece (e : Expr) : Piece := .kept e.token

namespace Expr

theorem argumentPieces_sublist {arguments : List Expr}
    (h : ∀ a ∈ arguments, (a.nodes.map piece).Sublist a.pieces) :
    ((argumentNodes arguments).map piece).Sublist (argumentPieces arguments) := by
  induction arguments with
  | nil => exact .slnil
  | cons a arguments ih =>
    obtain ⟨ha, hmore⟩ := List.forall_mem_cons.1 h
    rw [argumentNodes, List.map_append]
    cases arguments with
    | nil => simpa [argumentNodes, argumentPieces] using ha
    | cons b arguments =>
      rw [argumentPieces_cons (List.cons_ne_nil b arguments)]
      exact ha.append ((ih hmore).cons _)

/-- The tokens of the nodes are among those that the tree keeps, in the same order. -/
theorem pieces_sublist (e : Expr) : (e.nodes.map piece).Sublist e.pieces := by
  have variable_sublist (v : Variable) : [(var v).piece].Sublist v.pieces := List.sublist_append_right _ _
  induction e with
  | literal l => exact .refl _
  | var v => exact variable_sublist v
  | assignment operator target value ih =>
    rw [nodes, pieces]
    exact (variable_sublist target).append (ih.cons_cons _)
  | binary operator left right ih ih' =>
    rw [nodes, pieces, List.map_append]
    exact ih.append (ih'.cons_cons _)
  | unary operator operand ih =>
    rw [nodes, pieces]
    exact ih.cons_cons _
  | call callee openToken arguments closeToken ih iha =>
    rw [nodes, pieces, List.map_append]
    exact ih.append (((argumentPieces_sublist iha).trans (List.sublist_append_left _ _)).cons_cons _)
  | index target openToken i closeToken ih ih' =>
    rw [nodes, pieces, List.map_append]
    exact ih.append ((ih'.trans (List.sublist_append_left _ _)).cons_cons _)
  | group openToken inner closeToken ih =>
    rw [nodes, pieces]
    exact (ih.trans (List.sublist_append_left _ _)).cons_cons _

end Expr

theorem Construct.pieces_sublist (c : Construct) : (c.nodes.map piece).Sublist c.pieces := by
  have hexpression (e : Expr) : ((e.nodes.map expression).map piece).Sublist e.pieces := by
    rw [List.map_map]
    exact e.pieces_sublist
  cases c with
  | expression e => exact hexpression e
  | returnStatement keyword value =>
    cases value with
    | none => exact .refl _
    | some e => exact (hexpression e).cons_cons _
  | function header => exact (List.nil_sublist _).cons_cons _
  | openBrace | closeBrace | passStatement | breakStatement => exact .refl _

theorem Program.pieces_sublist (p : Program) : (p.nodes.map Construct.piece).Sublist p.pieces := by
  rw [nodes, List.map_flatMap]
  exact List.Sublist.flatMap_right _ fun c _ ↦ c.pieces_sublist

/-- The tokens that a tree keeps are among the tokens that it stands for. -/
theorem Covers.sublist {ps : List Piece} {ts kept : List Token} (h : Covers ps ts)
    (hkept : (kept.map Piece.kept).Sublist ps) : kept.Sublist ts := by
  induction h generalizing kept with
  | nil =>
    rw [List.sublist_nil, List.map_eq_nil_iff] at hkept
    rw [hkept]
  | @cons p t ps ts hp _ ih =>
    rcases List.sublist_cons_iff.1 hkept with hmore | ⟨more, heq, hmore⟩
    · exact (ih hmore).cons t
    · obtain ⟨first, kept, rfl, rfl, rfl⟩ := List.map_eq_cons_iff.1 heq
      obtain rfl : t = first := hp
      exact (ih hmore).cons_cons t

/-- No two nodes of an accepted text have the same token. -/
theorem tokens_of_nodes {source : String} {program : Program} (h : parse source = .ok program) :
    ∃ tokens, tokenize source = .ok tokens ∧ (program.nodes.map Construct.token).Sublist tokens.toList ∧
      (program.nodes.map Construct.token).Nodup := by
  obtain ⟨tokens, htokens, hc⟩ := exists_covers_of_parse h
  have hsublist : (program.nodes.map Construct.token).Sublist tokens.toList := hc.sublist (by
    rw [List.map_map]
    exact program.pieces_sublist)
  exact ⟨tokens, htokens, hsublist, (successive_of_tokenize htokens).nodup.sublist hsublist⟩

/-- A text has no more tokens than characters that are not blank. -/
theorem size_le_inkCount {source : String} {tokens : Array Token} (h : tokenize source = .ok tokens) :
    tokens.size ≤ Text.inkCount source.toList := by
  have hcontents := Lexer.readAll_eq_ok.1 h
  rw [Lexer.upcoming_of_not_held rfl] at hcontents
  calc tokens.size = (tokens.toList.map (Except.ok : Token → Except LexicalError Token)).length := by
        rw [List.length_map, Array.length_toList]
    _ = ((Lexer.ofText source.toList false).ahead false).length := by rw [← hcontents, List.length_map]
    _ ≤ Text.inkCount (Lexer.ofText source.toList false).unreadText := Lexer.length_ahead_le_inkCount _ _
    _ ≤ Text.inkCount source.toList := Lexer.inkCount_ofText_le source.toList false

end Linewise
