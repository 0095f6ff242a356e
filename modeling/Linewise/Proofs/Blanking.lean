import Linewise.Proofs.Lines
import Linewise.Proofs.Places

namespace Linewise

def Span.covers (s : Span) (p : Position) : Bool := decide (s.start ≤ p) && decide (p ≤ s.stop)

def inComment (tokens : List Token) (p : Position) : Bool :=
  tokens.any fun t ↦ t.kind.isComment && t.span.covers p

namespace Text

section

variable (hidden : Position → Bool)

def blankFrom : Position → List Char → List Char
  | _, [] => []
  | p, c :: cs => (if hidden p then ' ' else c) :: blankFrom ⟨p.line, p.column + 1⟩ cs

def blankLines : Nat → List (List Char) → List (List Char)
  | _, [] => []
  | n, line :: more => blankFrom hidden ⟨n, 0⟩ line :: blankLines (n + 1) more

def blankPieces : Nat → List (List Char) → List (List Char)
  | _, [] => []
  | n, piece :: more =>
    (blankFrom hidden ⟨n, 0⟩ (dropTerminator piece) ++ piece.drop (dropTerminator piece).length) ::
      blankPieces (n + 1) more

/-- The text with spaces at the hidden places. -/
def blankText (text : List Char) : List Char := (blankPieces hidden 1 (pieces text)).flatten

end

variable {hidden : Position → Bool} {p : Position} {cs : List Char}

@[simp]
theorem length_blankFrom : (blankFrom hidden p cs).length = cs.length := by
  induction cs generalizing p with
  | nil => rfl
  | cons c cs ih => rw [blankFrom, List.length_cons, List.length_cons, ih]

theorem blankFrom_append (p : Position) (cs ds : List Char) : blankFrom hidden p (cs ++ ds) =
    blankFrom hidden p cs ++ blankFrom hidden ⟨p.line, p.column + cs.length⟩ ds := by
  induction cs generalizing p with
  | nil => rfl
  | cons c cs ih =>
    rw [List.cons_append, blankFrom, ih, blankFrom, List.cons_append, List.length_cons]
    simp only [Nat.add_assoc, Nat.add_comm 1]

theorem mem_blankFrom {c : Char} (h : c ∈ blankFrom hidden p cs) : c = ' ' ∨ c ∈ cs := by
  induction cs generalizing p with
  | nil => cases h
  | cons d cs ih =>
    rw [blankFrom] at h
    rcases List.mem_cons.1 h with rfl | h
    · split
      · exact .inl rfl
      · exact .inr List.mem_cons_self
    · exact (ih h).imp id (List.mem_cons_of_mem d)

theorem newline_not_mem_blankFrom (h : '\n' ∉ cs) : '\n' ∉ blankFrom hidden p cs := by
  intro hn
  rcases mem_blankFrom hn with hn | hn
  · cases hn
  · exact h hn

theorem getLast?_blankFrom (h : cs.getLast? ≠ some '\r') :
    (blankFrom hidden p cs).getLast? ≠ some '\r' := by
  rcases List.eq_nil_or_concat cs with rfl | ⟨ds, c, rfl⟩
  · simp [blankFrom]
  · rw [List.concat_eq_append, List.getLast?_concat] at h
    rw [List.concat_eq_append, blankFrom_append, blankFrom, blankFrom, List.getLast?_concat]
    split
    · decide
    · exact h

theorem blankFrom_eq_self
    (h : ∀ i < cs.length, hidden ⟨p.line, p.column + i⟩ = false) : blankFrom hidden p cs = cs := by
  induction cs generalizing p with
  | nil => rfl
  | cons c cs ih =>
    have hfirst := h 0 (by simp)
    have hmore : blankFrom hidden ⟨p.line, p.column + 1⟩ cs = cs := by
      refine ih fun i hi ↦ ?_
      have := h (i + 1) (by rw [List.length_cons]; omega)
      rwa [show p.column + (i + 1) = p.column + 1 + i by omega] at this
    rw [blankFrom, hmore, if_neg]
    rw [Nat.add_zero] at hfirst
    simp [hfirst]

theorem all_isBlank_blankFrom
    (h : ∀ i (hi : i < cs.length), isBlank cs[i] = true ∨ hidden ⟨p.line, p.column + i⟩ = true) :
    (blankFrom hidden p cs).all isBlank = true := by
  induction cs generalizing p with
  | nil => rfl
  | cons c cs ih =>
    have hmore : (blankFrom hidden ⟨p.line, p.column + 1⟩ cs).all isBlank = true := by
      refine ih fun i hi ↦ ?_
      have := h (i + 1) (by rw [List.length_cons]; omega)
      rwa [List.getElem_cons_succ, show p.column + (i + 1) = p.column + 1 + i by omega] at this
    rw [blankFrom, List.all_cons, hmore, Bool.and_true]
    split
    · decide
    · next hp =>
      rcases h 0 (by simp) with hb | hh
      · exact hb
      · exact absurd hh hp

theorem all_isBlank_blankFrom_of_all (h : cs.all isBlank = true) :
    (blankFrom hidden p cs).all isBlank = true :=
  all_isBlank_blankFrom fun _ _ ↦ .inl (List.all_eq_true.1 h _ (List.getElem_mem _))

theorem blankLines_append (n : Nat) (ls ms : List (List Char)) : blankLines hidden n (ls ++ ms) =
    blankLines hidden n ls ++ blankLines hidden (n + ls.length) ms := by
  induction ls generalizing n with
  | nil => rfl
  | cons l ls ih =>
    rw [List.cons_append, blankLines, ih, blankLines, List.cons_append, List.length_cons,
      Nat.add_assoc, Nat.add_comm 1]

@[simp]
theorem length_blankLines (n : Nat) (ls : List (List Char)) :
    (blankLines hidden n ls).length = ls.length := by
  induction ls generalizing n with
  | nil => rfl
  | cons l ls ih => rw [blankLines, List.length_cons, List.length_cons, ih]

theorem mem_blankLines {l : List Char} {n : Nat} {ls : List (List Char)}
    (h : l ∈ blankLines hidden n ls) :
    ∃ m l', n ≤ m ∧ m < n + ls.length ∧ l' ∈ ls ∧ l = blankFrom hidden ⟨m, 0⟩ l' := by
  induction ls generalizing n with
  | nil => cases h
  | cons l' ls ih =>
    rw [blankLines] at h
    rcases List.mem_cons.1 h with rfl | h
    · exact ⟨n, l', Nat.le_refl n, by simp, List.mem_cons_self, rfl⟩
    · obtain ⟨m, l'', hn, hm, hl, rfl⟩ := ih h
      refine ⟨m, l'', by omega, ?_, List.mem_cons_of_mem l' hl, rfl⟩
      rw [List.length_cons]
      omega

theorem blankPieces_append_newline {a : List Char} (h : '\n' ∉ a) (n : Nat) (b : List Char) :
    ∃ a', '\n' ∉ a' ∧ (blankPieces hidden n (pieces (a ++ '\n' :: b))).flatten =
        a' ++ '\n' :: (blankPieces hidden (n + 1) (pieces b)).flatten ∧
      dropTerminator (a' ++ ['\n']) = blankFrom hidden ⟨n, 0⟩ (dropTerminator (a ++ ['\n'])) := by
  rw [pieces_append_newline h, blankPieces, List.flatten_cons]
  by_cases hr : a.getLast? = some '\r'
  · obtain ⟨body, rfl⟩ : ∃ body, a = body ++ ['\r'] := ⟨_, (List.dropLast_append_getLast? _ hr).symm⟩
    have hbody : '\n' ∉ body := fun hn ↦ h (List.mem_append_left _ hn)
    refine ⟨blankFrom hidden ⟨n, 0⟩ body ++ ['\r'], ?_, ?_, ?_⟩
    · simpa using newline_not_mem_blankFrom hbody
    · rw [dropTerminator_append_newline, if_pos hr, List.dropLast_concat]
      simp
    · rw [dropTerminator_append_newline, dropTerminator_append_newline, if_pos hr,
        if_pos List.getLast?_concat, List.dropLast_concat, List.dropLast_concat]
  · refine ⟨blankFrom hidden ⟨n, 0⟩ a, newline_not_mem_blankFrom h, ?_, ?_⟩
    · rw [dropTerminator_append_newline, if_neg hr, List.drop_left]
      simp
    · rw [dropTerminator_append_newline, dropTerminator_append_newline, if_neg hr,
        if_neg (getLast?_blankFrom hr)]

theorem lines_blankPieces (n : Nat) (text : List Char) :
    lines (blankPieces hidden n (pieces text)).flatten = blankLines hidden n (lines text) := by
  by_cases hn : '\n' ∈ text
  · obtain ⟨a, b, rfl, ha⟩ := List.eq_append_cons_of_mem hn
    obtain ⟨a', ha', hflat, hdrop⟩ := @blankPieces_append_newline hidden a ha n b
    have ih := lines_blankPieces (n + 1) b
    rw [hflat, lines, pieces_append_newline ha', List.map_cons, hdrop, ← lines, ih]
    rw [show lines (a ++ '\n' :: b) = dropTerminator (a ++ ['\n']) :: lines b by
      rw [lines, pieces_append_newline ha, List.map_cons, lines], blankLines]
  · by_cases hne : text = []
    · subst hne
      rfl
    · have hdrop := dropTerminator_of_no_newline hn
      have hne' : blankFrom hidden ⟨n, 0⟩ text ≠ [] := by
        intro h
        have := congrArg List.length h
        rw [length_blankFrom] at this
        exact hne (List.eq_nil_of_length_eq_zero this)
      rw [pieces_of_no_newline hn hne, blankPieces, blankPieces, hdrop, List.drop_length,
        List.append_nil, List.flatten_singleton,
        lines_of_no_newline (newline_not_mem_blankFrom hn) hne', lines_of_no_newline hn hne,
        blankLines, blankLines]
termination_by text.length
decreasing_by
  subst text
  simp only [List.length_append, List.length_cons]
  omega

theorem lines_blankText (hidden : Position → Bool) (text : List Char) :
    lines (blankText hidden text) = blankLines hidden 1 (lines text) := lines_blankPieces 1 text

end Text

def blankComments (source : String) : String :=
  match (Lexer.ofSource source true).readAll with
  | .ok tokens => String.ofList (Text.blankText (inComment tokens.toList) source.toList)
  | .error _ => source

end Linewise
