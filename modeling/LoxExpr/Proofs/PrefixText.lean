import LoxExpr.Proofs.Literals
/-!
# Prefix text: no two trees are written alike

In prefix form a literal is a word, and any other node is a word with its operands behind it, between parentheses.  What ends
a word is a mark, a blank or a closing parenthesis, and no word has one in it as long as there are no strings
(`Value.isWord_text`).  So a text can be taken apart from the left in one way only, whatever follows it: the word of a node
ends at the first blank, and behind each operand a blank says that there is another one and a parenthesis that there is
none (`forall₂_of_operandsText`).  That is what tells a negation from a subtraction, and both from a negative number.

A text therefore says everything of a tree but the tokens of its operators (`Expr.prefixText_eq_iff`).
-/
namespace LoxExpr

open Segment (EndsPiece endsPiece_nil endsPiece_cons)

/-! ## Words -/

/-- **A word** has neither a blank nor a parenthesis in it. -/
def IsWord (w : List Char) : Prop := ∀ c ∈ w, c ≠ ' ' ∧ c ≠ '(' ∧ c ≠ ')'

-- named, since the instance that is found by itself goes through all characters
instance (w : List Char) : Decidable (IsWord w) := List.decidableBAll (fun c => c ≠ ' ' ∧ c ≠ '(' ∧ c ≠ ')') w

section
variable {v w r s : List Char}

/-- **A word ends at the first mark.** -/
theorem IsWord.append_inj (hv : IsWord v) (hw : IsWord w) (hr : EndsPiece r) (hs : EndsPiece s) (h : v ++ r = w ++ s) :
    v = w ∧ r = s := by
  let p : Char → Bool := fun c => c ≠ ' ' && c ≠ ')'
  have hp : ∀ u, IsWord u → ∀ c ∈ u, p c = true := fun u hu c hc => by simp [p, (hu c hc).1, (hu c hc).2.2]
  have hlength : v.length = w.length := by
    rw [← Segment.run_append (hp v hv) (hr.head (by decide) (by decide)), h,
      Segment.run_append (hp w hw) (hs.head (by decide) (by decide))]
  exact List.append_inj h hlength

/-- What begins with a parenthesis begins with no word. -/
theorem IsWord.append_ne_paren (hv : IsWord v) (hr : EndsPiece r) : v ++ r ≠ '(' :: s := by
  intro h
  cases v with
  | nil => rcases hr '(' (by rw [← List.nil_append r, h]; rfl) with hc | hc <;> cases hc
  | cons c v =>
    obtain ⟨rfl, -⟩ := List.cons.inj h
    exact (hv '(' List.mem_cons_self).2.1 rfl

end

/-! ## Literals -/

/-- What is no string, with a finite number if it is one. -/
def Value.IsPlain : Value → Prop
  | number n => n.isFinite = true
  | string _ => False
  | _ => True

theorem Number.isWord_text {x : Number} (hx : x.isFinite = true) : IsWord x.text.toList := by
  cases x with
  | nan s => cases hx
  | infinity s => cases hx
  | finite s m =>
    obtain ⟨n, htext, -⟩ := m.shortest.exists_numeral
    intro c hc
    rw [text, String.toList_append, String.toList_ofList, ← htext, List.mem_append] at hc
    rcases hc with hsign | hc
    · have hword : IsWord (signText s).toList := by cases s <;> decide
      exact hword c hsign
    · rcases n.isDigit_of_mem_text hc with hdigit | rfl
      · exact ⟨Segment.ne_of_class hdigit (by decide), Segment.ne_of_class hdigit (by decide),
          Segment.ne_of_class hdigit (by decide)⟩
      · decide

namespace Value

variable {v w : Value}

theorem isWord_text (hv : v.IsPlain) : IsWord v.text.toList := by
  cases v with
  | number n => exact Number.isWord_text hv
  | string s => exact hv.elim
  | bool b => cases b <;> decide
  | nil => decide

/-- Read as a number, the text of a number is that number, and no other text is one. -/
theorem ofText?_text (hv : v.IsPlain) : Number.ofText? v.text.toList = v.asNumber? := by
  cases v with
  | number n => exact Number.ofText?_text hv
  | string s => exact hv.elim
  | bool b => cases b <;> decide
  | nil => decide

/-- **No two literals have the same text.** -/
theorem text_inj (hv : v.IsPlain) (hw : w.IsPlain) (h : v.text = w.text) : v = w := by
  have hnumber : v.asNumber? = w.asNumber? := by rw [← ofText?_text hv, ← ofText?_text hw, h]
  cases v with
  | number x => cases w <;> cases hnumber; rfl
  | string s => exact hv.elim
  | bool b =>
    cases w with
    | number y => cases hnumber
    | string s => exact hw.elim
    | bool b' => cases b <;> cases b' <;> first | rfl | exact absurd h (by decide)
    | nil => cases b <;> exact absurd h (by decide)
  | nil =>
    cases w with
    | number y => cases hnumber
    | string s => exact hw.elim
    | bool b => cases b <;> exact absurd h (by decide)
    | nil => rfl

end Value

/-! ## Nodes -/

theorem UnaryOp.text_inj {op op' : UnaryOp} (h : op.text = op'.text) : op = op' := by
  cases op <;> cases op' <;> first | rfl | exact absurd h (by decide)

theorem BinaryOp.text_inj {op op' : BinaryOp} (h : op.text = op'.text) : op = op' := by
  cases op <;> cases op' <;> first | rfl | exact absurd h (by decide)

namespace Expr

/-- **Trees with the same nodes**: the same operators and the same literals at the same places, whatever the tokens are. -/
inductive SameNodes : Expr → Expr → Prop
  | literal {v} : SameNodes (.literal v) (.literal v)
  | group {a b} : SameNodes a b → SameNodes (.group a) (.group b)
  | unary {op t t' a b} : SameNodes a b → SameNodes (.unary op t a) (.unary op t' b)
  | binary {op t t' a b c d} : SameNodes a b → SameNodes c d → SameNodes (.binary a op t c) (.binary b op t' d)

/-- What a tree is at its root, if it is no literal. -/
inductive Node where
  | group
  | unary (op : UnaryOp)
  | binary (op : BinaryOp)

/-- The word that a node is written with. -/
def Node.word : Node → String
  | group => "group"
  | unary op => op.text
  | binary op => op.text

def Node.arity : Node → Nat
  | group | unary _ => 1
  | binary _ => 2

/-- The root of a tree, and its operands. -/
def node? : Expr → Option (Node × List Expr)
  | literal _ => none
  | group e => some (.group, [e])
  | unary op _ e => some (.unary op, [e])
  | binary l op _ r => some (.binary op, [l, r])

/-- The operands of a node as they are written behind its word. -/
def operandsText (as : List Expr) : List Char := as.flatMap fun a => ' ' :: a.prefixText.toList

/-- **A tree that is told from every other by its text**, whatever follows the two. -/
def IsLegible (a : Expr) : Prop := ∀ b : Expr, (∀ v ∈ b.literals, v.IsPlain) → ∀ r s, EndsPiece r → EndsPiece s →
  a.prefixText.toList ++ r = b.prefixText.toList ++ s → SameNodes a b ∧ r = s

section
variable {a b : Expr} {x y : Node} {as bs : List Expr} {r s : List Char}

theorem SameNodes.prefixText_eq (h : SameNodes a b) : a.prefixText = b.prefixText := by
  induction h with
  | literal => rfl
  | group _ ih => rw [prefixText, prefixText, ih]
  | unary _ ih => rw [prefixText, prefixText, ih]
  | binary _ _ ihl ihr => rw [prefixText, prefixText, ihl, ihr]

theorem eq_literal_of_node? (h : a.node? = none) : ∃ v, a = literal v := by
  cases a with
  | literal v => exact ⟨v, rfl⟩
  | group e => cases h
  | unary op t e => cases h
  | binary l op t r => cases h

theorem toList_prefixText (h : a.node? = some (x, as)) :
    a.prefixText.toList = '(' :: (x.word.toList ++ (operandsText as ++ [')'])) := by
  cases a <;> cases h <;> simp [prefixText, operandsText, Node.word, String.toList_append]

theorem length_of_node? (h : a.node? = some (x, as)) : as.length = x.arity := by
  cases a <;> cases h <;> rfl

theorem Node.isWord_word (x : Node) : IsWord x.word.toList := by
  cases x with
  | group => decide
  | unary op => cases op <;> decide
  | binary op => cases op <;> decide

/-- **The word of a node and the number of its operands say which node it is.**  A negation and a subtraction have the same
word, and no operator is written like a group. -/
theorem Node.eq_of_word (h : x.word = y.word) (hn : x.arity = y.arity) : x = y := by
  cases x with
  | group =>
    cases y with
    | group => rfl
    | unary op => cases op <;> exact absurd h (by decide)
    | binary op => cases hn
  | unary op =>
    cases y with
    | group => cases op <;> exact absurd h (by decide)
    | unary op' => exact congrArg _ (UnaryOp.text_inj h)
    | binary op' => cases hn
  | binary op =>
    cases y with
    | group => cases hn
    | unary op' => cases hn
    | binary op' => exact congrArg _ (BinaryOp.text_inj h)

theorem mem_literals_of_node? (h : a.node? = some (x, as)) {e : Expr} (he : e ∈ as) {v : Value} (hv : v ∈ e.literals) :
    v ∈ a.literals := by
  cases a with
  | literal v => cases h
  | group e => cases h; obtain rfl := List.mem_singleton.1 he; exact hv
  | unary op t e => cases h; obtain rfl := List.mem_singleton.1 he; exact hv
  | binary l op t r =>
    cases h
    rcases List.mem_pair.1 he with rfl | rfl
    · exact List.mem_append_left _ hv
    · exact List.mem_append_right _ hv

theorem sameNodes_of_node? (ha : a.node? = some (x, as)) (hb : b.node? = some (x, bs)) (h : List.Forall₂ SameNodes as bs) :
    SameNodes a b := by
  cases a with
  | literal v => cases ha
  | group e =>
    cases ha
    cases b <;> cases hb
    cases h with | cons h _ => exact .group h
  | unary op t e =>
    cases ha
    cases b <;> cases hb
    cases h with | cons h _ => exact .unary h
  | binary l op t r =>
    cases ha
    cases b <;> cases hb
    cases h with | cons hl h => cases h with | cons hr _ => exact .binary hl hr

theorem endsPiece_operandsText (as : List Expr) (r : List Char) : EndsPiece (operandsText as ++ ')' :: r) := by
  cases as with
  | nil => exact endsPiece_cons (.inr rfl)
  | cons a as => exact endsPiece_cons (.inl rfl)

/-- **Operands are taken apart in one way only**: a blank says that another one follows, and a parenthesis that none does. -/
theorem forall₂_of_operandsText (has : ∀ a ∈ as, a.IsLegible) (hbs : ∀ b ∈ bs, ∀ v ∈ b.literals, v.IsPlain)
    (h : operandsText as ++ ')' :: r = operandsText bs ++ ')' :: s) : List.Forall₂ SameNodes as bs ∧ r = s := by
  induction as generalizing bs with
  | nil =>
    cases bs with
    | nil => exact ⟨.nil, (List.cons.inj h).2⟩
    | cons b bs => cases (List.cons.inj h).1
  | cons a as ih =>
    obtain ⟨ha, has⟩ := List.forall_mem_cons.1 has
    cases bs with
    | nil => cases (List.cons.inj h).1
    | cons b bs =>
      obtain ⟨hb, hbs⟩ := List.forall_mem_cons.1 hbs
      have hbehind : a.prefixText.toList ++ (operandsText as ++ ')' :: r) =
          b.prefixText.toList ++ (operandsText bs ++ ')' :: s) := by
        simpa [operandsText] using h
      obtain ⟨hab, hrest⟩ := ha b hb _ _ (endsPiece_operandsText as r) (endsPiece_operandsText bs s) hbehind
      obtain ⟨hoperands, hrs⟩ := ih has hbs hrest
      exact ⟨.cons hab hoperands, hrs⟩

/-! ## Trees -/

theorem isLegible_literal {v : Value} (hv : v.IsPlain) : (literal v).IsLegible := by
  intro b hb r s hr hs h
  cases hn : b.node? with
  | none =>
    obtain ⟨w, rfl⟩ := eq_literal_of_node? hn
    have hw : w.IsPlain := hb w (List.mem_singleton_self w)
    obtain ⟨htext, hrs⟩ := (Value.isWord_text hv).append_inj (Value.isWord_text hw) hr hs h
    obtain rfl := Value.text_inj hv hw (String.toList_inj.1 htext)
    exact ⟨.literal, hrs⟩
  | some node =>
    rw [toList_prefixText hn] at h
    exact absurd h ((Value.isWord_text hv).append_ne_paren hr)

theorem isLegible_of_node? (ha : a.node? = some (x, as)) (has : ∀ e ∈ as, e.IsLegible) : a.IsLegible := by
  intro b hb r s hr hs h
  rw [toList_prefixText ha] at h
  cases hn : b.node? with
  | none =>
    obtain ⟨w, rfl⟩ := eq_literal_of_node? hn
    exact absurd h.symm ((Value.isWord_text (hb w (List.mem_singleton_self w))).append_ne_paren hs)
  | some node =>
    obtain ⟨y, bs⟩ := node
    rw [toList_prefixText hn] at h
    have hnodes : x.word.toList ++ (operandsText as ++ ')' :: r) = y.word.toList ++ (operandsText bs ++ ')' :: s) := by
      simpa using h
    obtain ⟨hword, hoperands⟩ := x.isWord_word.append_inj y.isWord_word (endsPiece_operandsText as r)
      (endsPiece_operandsText bs s) hnodes
    have hbs : ∀ e ∈ bs, ∀ v ∈ e.literals, v.IsPlain := fun e he v hv => hb v (mem_literals_of_node? hn he hv)
    obtain ⟨hsame, hrs⟩ := forall₂_of_operandsText has hbs hoperands
    have harity : x.arity = y.arity := by rw [← length_of_node? ha, ← length_of_node? hn, hsame.length_eq]
    obtain rfl := Node.eq_of_word (String.toList_inj.1 hword) harity
    exact ⟨sameNodes_of_node? ha hn hsame, hrs⟩

/-- **Without strings every tree is legible**, for so are its operands. -/
theorem isLegible (a : Expr) (ha : ∀ v ∈ a.literals, v.IsPlain) : a.IsLegible := by
  induction a with
  | literal v => exact isLegible_literal (ha v (List.mem_singleton_self v))
  | group e ih => exact isLegible_of_node? rfl fun e' he => by obtain rfl := List.mem_singleton.1 he; exact ih ha
  | unary op t e ih => exact isLegible_of_node? rfl fun e' he => by obtain rfl := List.mem_singleton.1 he; exact ih ha
  | binary l op t r ihl ihr =>
    obtain ⟨hl, hr⟩ := List.forall_mem_append.1 ha
    refine isLegible_of_node? rfl fun e he => ?_
    rcases List.mem_pair.1 he with rfl | rfl
    · exact ihl hl
    · exact ihr hr

end

/-- **The prefix text of a tree without strings says everything but the tokens.**  Two trees with no other literals than
booleans, `nil` and finite numbers are written alike exactly if they have the same nodes: the same shape, the same operators
and the same literals, a number being the same if it is the same double. -/
theorem prefixText_eq_iff (a b : Expr) (ha : ∀ v ∈ a.literals, v.IsPlain) (hb : ∀ v ∈ b.literals, v.IsPlain) :
    a.prefixText = b.prefixText ↔ a.SameNodes b := by
  refine ⟨fun h => ?_, SameNodes.prefixText_eq⟩
  have htext : a.prefixText.toList ++ [] = b.prefixText.toList ++ [] := by rw [h]
  exact (a.isLegible ha b hb [] [] endsPiece_nil endsPiece_nil htext).1

/-- With strings a text says less: one is written bare, and may look like anything. -/
example : (literal (.string "nil")).prefixText = (literal .nil).prefixText := rfl

end Expr

/-- The opposite of one subtracted from minus one, on a line. -/
def minusOnes (line : Nat) : Expr :=
  .binaryAt (.literal (.number (.ofDecimal true ⟨1, 0⟩))) .sub
    (.unaryAt .negate (.literal (.number (.ofDecimal false ⟨1, 0⟩))) line) line

/-- The opposite of the difference of minus one and one. -/
def oppositeOfDifference : Expr :=
  .unaryAt .negate
    (.binaryAt (.literal (.number (.ofDecimal true ⟨1, 0⟩))) .sub (.literal (.number (.ofDecimal false ⟨1, 0⟩))) 1) 1

/-- Three minus signs of three sorts stand in the first text, and the second has the same signs in another order. -/
theorem Expr.prefixText_minusOnes : (∀ v ∈ (minusOnes 1).literals, v.IsPlain) ∧ (∀ v ∈ (minusOnes 2).literals, v.IsPlain) ∧
    (∀ v ∈ oppositeOfDifference.literals, v.IsPlain) ∧
    (minusOnes 1).prefixText = "(- -1 (- 1))" ∧ (minusOnes 1).SameNodes (minusOnes 2) ∧
    oppositeOfDifference.prefixText = "(- (- -1 1))" ∧ oppositeOfDifference.prefixText ≠ (minusOnes 1).prefixText := by
  have hone : (Value.number (.ofDecimal false ⟨1, 0⟩)).IsPlain := by
    have hfinite : (Number.ofDecimal false ⟨1, 0⟩).isFinite = true := by decide +kernel
    exact hfinite
  have hminus : (Value.number (.ofDecimal true ⟨1, 0⟩)).IsPlain := by
    have hfinite : (Number.ofDecimal true ⟨1, 0⟩).isFinite = true := by decide +kernel
    exact hfinite
  have hplain : ∀ v ∈ [Value.number (.ofDecimal true ⟨1, 0⟩), Value.number (.ofDecimal false ⟨1, 0⟩)], v.IsPlain := by
    simp [hone, hminus]
  have htext : (minusOnes 1).prefixText = "(- -1 (- 1))" := by decide +kernel
  refine ⟨hplain, hplain, hplain, htext, ?_, by decide +kernel, ?_⟩
  · exact (prefixText_eq_iff (minusOnes 1) (minusOnes 2) hplain hplain).1 rfl
  · intro h
    cases (prefixText_eq_iff oppositeOfDifference (minusOnes 1) hplain hplain).1 h

end LoxExpr
