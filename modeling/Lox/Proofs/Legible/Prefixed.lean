import Lox.Proofs.Legible.Outlines
import Lox.Proofs.Scoping.Places
import Lox.Proofs.Tiling
import Lox.Tree.Prefixed

/-!
# A prefix form shows its expression

A prefix form is an atom, or a head and further forms in parentheses. Atoms are words without
spaces, parentheses and quotes, or texts between quotes that hold no quote. So each part of a
form ends where its text says, and a text that begins with a form begins with no other.

The head of a form and the number of its arguments tell the kind of the node: a minus, say, has
one operand or two. An atom that is no constant and not `this` is a name, since names are no
reserved words and start with a letter. Of numbers only the finite ones are told from names.
-/

namespace Lox

/-- What the prefix form of an expression consists of. -/
inductive PrefixForm where
  | atom (text : String)
  | list (head : String) (arguments : List PrefixForm)

namespace PrefixForm

mutual

/-- The form as a text. -/
def text : PrefixForm → List Char
  | .atom s => s.toList
  | .list head arguments => '(' :: (head.toList ++ textAll arguments ++ [')'])

/-- Each form after a space. -/
def textAll : List PrefixForm → List Char
  | [] => []
  | f :: rest => ' ' :: f.text ++ textAll rest

end

/-- The characters of words. -/
def isPlain (c : Char) : Bool :=
  c != ' ' && c != '(' && c != ')' && c != '"'

/-- A word, or a text between quotes. -/
inductive IsAtom : List Char → Prop
  | word {c : Char} {cs : List Char} :
      isPlain c = true → (∀ d ∈ cs, isPlain d = true) → IsAtom (c :: cs)
  | quotation {cs : List Char} : '"' ∉ cs → IsAtom ('"' :: (cs ++ ['"']))

mutual

/-- The atoms are atoms, and the heads are words. -/
def Legible : PrefixForm → Prop
  | .atom s => IsAtom s.toList
  | .list head arguments => (∀ c ∈ head.toList, isPlain c = true) ∧ LegibleAll arguments

def LegibleAll : List PrefixForm → Prop
  | [] => True
  | f :: rest => f.Legible ∧ LegibleAll rest

end

/-- No word goes on here. -/
def Stops (rest : List Char) : Prop :=
  rest.head?.any isPlain = false

theorem stops_textAll (arguments : List PrefixForm) (rest : List Char) :
    Stops (textAll arguments ++ ')' :: rest) := by
  cases arguments with
  | nil => exact rfl
  | cons f arguments => exact rfl

/-! ## Reading from the front -/

/-- A run of characters that pass a test is known if it ends where the next one does not. -/
theorem run_injective {q : Char → Bool} {w w' rest rest' : List Char}
    (hw : ∀ c ∈ w, q c = true) (hw' : ∀ c ∈ w', q c = true)
    (hrest : rest.head?.any q = false) (hrest' : rest'.head?.any q = false)
    (h : w ++ rest = w' ++ rest') : w = w' ∧ rest = rest' := by
  obtain ⟨htake, hdrop⟩ := Piece.takeWhile_append_stop hw hrest
  obtain ⟨htake', hdrop'⟩ := Piece.takeWhile_append_stop hw' hrest'
  rw [h] at htake hdrop
  exact ⟨htake.symm.trans htake', hdrop.symm.trans hdrop'⟩

variable {rest rest' : List Char}

/-- An atom is no list. -/
theorem IsAtom.ne_list {text more : List Char} (h : IsAtom text) :
    text ++ rest ≠ '(' :: more := by
  cases h with
  | word hc =>
      rintro ⟨⟩
      cases hc
  | quotation => exact fun h => by cases h

/-- An atom is known if no word goes on after it. -/
theorem IsAtom.injective {text text' : List Char} (h : IsAtom text) (h' : IsAtom text')
    (hrest : Stops rest) (hrest' : Stops rest') (heq : text ++ rest = text' ++ rest') :
    text = text' ∧ rest = rest' := by
  cases h with
  | word hc hcs =>
      cases h' with
      | word hc' hcs' =>
          exact run_injective (List.forall_mem_cons.mpr ⟨hc, hcs⟩)
            (List.forall_mem_cons.mpr ⟨hc', hcs'⟩) hrest hrest' heq
      | quotation =>
          obtain ⟨rfl, -⟩ := List.cons.inj heq
          cases hc
  | quotation hquote =>
      cases h' with
      | word hc' =>
          obtain ⟨rfl, -⟩ := List.cons.inj heq
          cases hc'
      | quotation hquote' =>
          have hinside : ∀ {cs : List Char}, '"' ∉ cs → ∀ c ∈ cs, (c != '"') = true :=
            fun hcs c hc => bne_iff_ne.mpr fun h => hcs (h ▸ hc)
          simp only [List.cons_append, List.append_assoc, List.nil_append, List.cons.injEq,
            true_and] at heq
          obtain ⟨rfl, hrests⟩ := run_injective (hinside hquote) (hinside hquote') rfl rfl heq
          exact ⟨rfl, (List.cons.inj hrests).2⟩

mutual

/-- A form is known by its text, if no word goes on after it. -/
theorem text_injective {f f' : PrefixForm} {rest rest' : List Char} (hf : f.Legible)
    (hf' : f'.Legible) (hrest : Stops rest) (hrest' : Stops rest')
    (h : f.text ++ rest = f'.text ++ rest') : f = f' ∧ rest = rest' := by
  match f with
  | .atom s =>
      cases f' with
      | atom s' =>
          obtain ⟨hs, hrests⟩ := IsAtom.injective hf hf' hrest hrest' h
          exact ⟨congrArg atom (String.toList_inj.mp hs), hrests⟩
      | list head' arguments' => exact absurd h (IsAtom.ne_list hf)
  | .list head arguments =>
      cases f' with
      | atom s' => exact absurd h.symm (IsAtom.ne_list hf')
      | list head' arguments' =>
          simp only [text, List.cons_append, List.append_assoc, List.nil_append, List.cons.injEq,
            true_and] at h
          obtain ⟨hhead, h⟩ := run_injective hf.1 hf'.1 (stops_textAll arguments rest)
            (stops_textAll arguments' rest') h
          obtain ⟨harguments, hrests⟩ := textAll_injective hf.2 hf'.2 h
          exact ⟨congrArg₂ list (String.toList_inj.mp hhead) harguments, hrests⟩

theorem textAll_injective {fs fs' : List PrefixForm} {rest rest' : List Char}
    (hfs : LegibleAll fs) (hfs' : LegibleAll fs')
    (h : textAll fs ++ ')' :: rest = textAll fs' ++ ')' :: rest') : fs = fs' ∧ rest = rest' := by
  match fs with
  | [] =>
      cases fs' with
      | nil => exact ⟨rfl, (List.cons.inj h).2⟩
      | cons f' fs' => exact absurd (List.cons.inj h).1 (by decide)
  | f :: fs =>
      cases fs' with
      | nil => exact absurd (List.cons.inj h).1 (by decide)
      | cons f' fs' =>
          simp only [textAll, List.cons_append, List.append_assoc, List.cons.injEq,
            true_and] at h
          obtain ⟨hf, hmore⟩ := text_injective hfs.1 hfs'.1 (stops_textAll fs rest)
            (stops_textAll fs' rest') h
          obtain ⟨hfs, hrests⟩ := textAll_injective hfs.2 hfs'.2 hmore
          exact ⟨congrArg₂ List.cons hf hfs, hrests⟩

end

/-! ## The printer's texts -/

theorem parenthesized_toList (head : String) (parts : List String) :
    (parenthesized (head :: parts)).toList =
      '(' :: (head.toList ++ parts.flatMap (fun part => ' ' :: part.toList) ++ [')']) := by
  have hjoined : ∀ (parts : List String) (head : String),
      (String.intercalate " " (head :: parts)).toList =
        head.toList ++ parts.flatMap (fun part => ' ' :: part.toList) := by
    intro parts
    induction parts with
    | nil => simp
    | cons part parts ih =>
        intro head
        rw [String.intercalate_cons_cons, String.toList_append, ih]
        simp
  rw [parenthesized, String.toList_append, String.toList_append, hjoined]
  rfl

end PrefixForm

open Token

/-! ## Finite numbers -/

def Binary.isFinite : Binary → Bool
  | .finite .. => true
  | _ => false

def Constant.isFinite : Constant → Bool
  | .number x => (Binary.ofFloat x).isFinite
  | _ => true

section

variable {δ : Type}

mutual

/-- The constants in an expression. -/
def Expr.constants : Expr δ → List Constant
  | .literal value => [value]
  | .unary _ operand => operand.constants
  | .binary left _ right => left.constants ++ right.constants
  | .logical left _ right => left.constants ++ right.constants
  | .conditional condition thenBranch elseBranch =>
    condition.constants ++ thenBranch.constants ++ elseBranch.constants
  | .grouping inner => inner.constants
  | .assign _ _ value => value.constants
  | .call callee _ arguments => callee.constants ++ Expr.constantsAll arguments
  | .get object _ => object.constants
  | .set object _ value => object.constants ++ value.constants
  | .vector _ elements => Expr.constantsAll elements
  | .var .. | .thisRef .. | .superRef .. => []

def Expr.constantsAll : List (Expr δ) → List Constant
  | [] => []
  | e :: rest => e.constants ++ Expr.constantsAll rest

end

/-- Every number in the expression is finite. -/
def Expr.FiniteNumbers (e : Expr δ) : Prop :=
  ∀ value ∈ e.constants, value.isFinite = true

instance (e : Expr δ) : Decidable e.FiniteNumbers :=
  inferInstanceAs (Decidable (∀ value ∈ e.constants, value.isFinite = true))

theorem Expr.constants_subset_all {e : Expr δ} {es : List (Expr δ)} (h : e ∈ es) :
    e.constants ⊆ Expr.constantsAll es := by
  induction h with
  | head => exact List.subset_append_left ..
  | tail _ _ ih => exact List.subset_append_of_subset_right _ ih

theorem Expr.constants_part {e part : Expr δ} (h : part ∈ e.parts) :
    part.constants ⊆ e.constants := by
  cases e with
  | call a paren es =>
      rcases List.mem_cons.mp h with rfl | h
      · exact List.subset_append_left ..
      · exact List.subset_append_of_subset_right _ (constants_subset_all h)
  | vector bracket es => exact constants_subset_all h
  | literal | var | thisRef | superRef => cases h
  | _ =>
      simp only [parts, List.mem_cons, List.not_mem_nil, or_false] at h
      rcases h with rfl | rfl | rfl <;> simp [constants]

theorem Expr.FiniteNumbers.part {e part : Expr δ} (h : e.FiniteNumbers)
    (hpart : part ∈ e.parts) : part.FiniteNumbers :=
  fun value hvalue => h value (Expr.constants_part hpart hvalue)

end

namespace PrefixForm

theorem isPlain_of {q : Char → Bool} {c : Char} (h : q c = true) (hspace : q ' ' = false)
    (hopen : q '(' = false) (hclose : q ')' = false) (hquote : q '"' = false) :
    isPlain c = true := by
  have hne := Piece.ne_of_test h
  simp [isPlain, hne ' ' hspace, hne '(' hopen, hne ')' hclose, hne '"' hquote]

theorem isPlain_of_isNameChar {c : Char} (h : Piece.isNameChar c = true) : isPlain c = true :=
  isPlain_of h rfl rfl rfl rfl

theorem isAtom_of_isWord {word : List Char} (h : Piece.IsWord word) : IsAtom word := by
  obtain ⟨c, cs, rfl, hc, hcs⟩ := h
  exact .word (isPlain_of hc rfl rfl rfl rfl) fun d hd => isPlain_of_isNameChar (hcs d hd)

end PrefixForm

open PrefixForm

/-- A finite number starts with a sign or a digit, and is a word. -/
theorem Layout.dump_finite {x : Float} (h : (Binary.ofFloat x).isFinite = true) :
    ∃ c cs, (Layout.dump.number x).toList = c :: cs ∧
      (Piece.isDigit c = true ∨ c = '-') ∧ IsAtom (c :: cs) := by
  have hdumped := Layout.dumped (Binary.ofFloat x)
  have hplain : ∀ {text v}, Numeral text v → ∀ c ∈ text, isPlain c = true :=
    fun htext c hc => isPlain_of (htext.isNumeral c hc) rfl rfl rfl rfl
  rw [Layout.number]
  generalize (Layout.dump.binary (Binary.ofFloat x)).toList = text at hdumped
  generalize Binary.ofFloat x = b at h hdumped
  cases hdumped with
  | nan | infinity | negativeInfinity => cases h
  | finite hnumeral =>
      obtain ⟨c, cs, rfl, hc⟩ := hnumeral.head
      have hword := List.forall_mem_cons.mp (hplain hnumeral)
      exact ⟨c, cs, rfl, .inl hc, .word hword.1 hword.2⟩
  | negative hnumeral => exact ⟨_, _, rfl, .inr rfl, .word rfl (hplain hnumeral)⟩

/-! ## Constants -/

/-- The first character of a constant in prefix form tells its sort. -/
def Constant.sortOfPrefix (c : Char) : Nat :=
  if c = 'n' then 0 else if c = 't' then 1 else if c = 'f' then 2
  else if c = '"' then 4 else 3

theorem Constant.prefixed_head {value : Constant} (h : value.isFinite = true) :
    HeadTells sortOfPrefix value.prefixed value := by
  cases value with
  | nil => exact ⟨_, _, rfl, rfl⟩
  | bool b => cases b <;> exact ⟨_, _, rfl, rfl⟩
  | number x =>
      obtain ⟨c, cs, htext, hc, -⟩ := Layout.dump_finite h
      refine ⟨c, cs, htext, ?_⟩
      rcases hc with hc | rfl
      · have hne := Piece.ne_of_test hc
        simp [sortOfPrefix, sort, hne 'n' rfl, hne 't' rfl, hne 'f' rfl, hne '"' rfl]
      · rfl
  | text s => exact ⟨'"', _, by rw [prefixed, String.append_assoc, String.toList_append]; rfl, rfl⟩

/-- The prefix form of a constant tells which one it is, if no number is infinite. -/
theorem Constant.prefixed_injective {value value' : Constant} (hvalue : value.isFinite = true)
    (hvalue' : value'.isFinite = true) (h : value.prefixed = value'.prefixed) : value = value' := by
  refine eq_of_heads (prefixed_head hvalue) (prefixed_head hvalue')
    (fun _ _ => Layout.dump_number_injective) (fun s s' htext => ?_) h
  exact (String.append_right_inj "\"").mp ((String.append_left_inj "\"").mp htext)

theorem Constant.isAtom_prefixed {value : Constant} (hvalue : value.isFinite = true)
    (hlexical : value.Lexical) : IsAtom value.prefixed.toList := by
  cases value with
  | nil => exact isAtom_of_isWord ⟨'n', ['i', 'l'], rfl, rfl, List.all_eq_true.mp rfl⟩
  | bool b =>
      cases b with
      | false =>
          exact isAtom_of_isWord ⟨'f', ['a', 'l', 's', 'e'], rfl, rfl, List.all_eq_true.mp rfl⟩
      | true => exact isAtom_of_isWord ⟨'t', ['r', 'u', 'e'], rfl, rfl, List.all_eq_true.mp rfl⟩
  | number x =>
      obtain ⟨c, cs, htext, -, hatom⟩ := Layout.dump_finite hvalue
      exact htext.symm ▸ hatom
  | text s =>
      have htext : (prefixed (.text s)).toList = '"' :: (s.toList ++ ['"']) := by
        rw [prefixed, String.append_assoc, String.toList_append, String.toList_append]
        rfl
      exact htext.symm ▸ .quotation hlexical

/-! ## Forms of expressions -/

section

variable {δ : Type}

mutual

/-- The prefix form of an expression. -/
def Expr.form : Expr δ → PrefixForm
  | .literal value => .atom value.prefixed
  | .unary operator operand => .list operator.lexeme [operand.form]
  | .binary left operator right => .list operator.lexeme [left.form, right.form]
  | .logical left operator right => .list operator.lexeme [left.form, right.form]
  | .conditional condition thenBranch elseBranch =>
    .list "?:" [condition.form, thenBranch.form, elseBranch.form]
  | .grouping inner => .list "group" [inner.form]
  | .var name _ => .atom name.lexeme
  | .assign name _ value => .list "=" [.atom name.lexeme, value.form]
  | .call callee _ arguments => .list "call" (callee.form :: Expr.formAll arguments)
  | .get object name => .list "." [.atom name.lexeme, object.form]
  | .set object name value => .list ".=" [.atom name.lexeme, object.form, value.form]
  | .thisRef .. => .atom "this"
  | .superRef _ method _ => .list "super" [.atom method.lexeme]
  | .vector _ elements => .list "vec" (Expr.formAll elements)

def Expr.formAll : List (Expr δ) → List PrefixForm
  | [] => []
  | e :: rest => e.form :: Expr.formAll rest

end

mutual

/-- The printer shows the form. -/
theorem Expr.prefixed_toList (e : Expr δ) : e.prefixed.toList = e.form.text := by
  cases e with
  | literal | var | thisRef => rfl
  | unary operator a =>
      simp [prefixed, form, text, textAll, parenthesized_toList, a.prefixed_toList]
  | binary a operator b =>
      simp [prefixed, form, text, textAll, parenthesized_toList, a.prefixed_toList,
        b.prefixed_toList]
  | logical a operator b =>
      simp [prefixed, form, text, textAll, parenthesized_toList, a.prefixed_toList,
        b.prefixed_toList]
  | conditional a b c =>
      simp [prefixed, form, text, textAll, parenthesized_toList, a.prefixed_toList,
        b.prefixed_toList, c.prefixed_toList]
  | grouping a => simp [prefixed, form, text, textAll, parenthesized_toList, a.prefixed_toList]
  | assign name slot a =>
      simp [prefixed, form, text, textAll, parenthesized_toList, a.prefixed_toList]
  | call a paren es =>
      simp [prefixed, form, text, textAll, parenthesized_toList, a.prefixed_toList,
        Expr.prefixedAll_toList es]
  | get a name =>
      simp [prefixed, form, text, textAll, parenthesized_toList, a.prefixed_toList]
  | set a name b =>
      simp [prefixed, form, text, textAll, parenthesized_toList, a.prefixed_toList,
        b.prefixed_toList]
  | superRef keyword method slot => simp [prefixed, form, text, textAll]
  | vector bracket es =>
      simp [prefixed, form, text, parenthesized_toList, Expr.prefixedAll_toList es]

theorem Expr.prefixedAll_toList (es : List (Expr δ)) :
    (Expr.prefixedAll es).flatMap (fun part => ' ' :: part.toList) = textAll (Expr.formAll es) := by
  cases es with
  | nil => rfl
  | cons e es =>
      rw [Expr.prefixedAll, List.flatMap_cons, e.prefixed_toList, Expr.prefixedAll_toList es,
        Expr.formAll, textAll]

end

end

/-! ## Heads and words -/

namespace PrefixForm

/-- The heads that are no operators of one or two operands, and the kinds of their nodes. -/
def heads : List (String × String) :=
  [("?:", "ConditionalExpr"), ("group", "Grouping"), ("=", "Assignment"),
   ("call", "FunctionCall"), (".", "MemberAccess"), (".=", "MemberAssignment"),
   ("super", "SuperAccess"), ("vec", "VectorLiteral"), ("and", "LogicalOp"), ("or", "LogicalOp")]

/-- The words that are no names, and the kinds of their nodes. -/
def words : List (String × String) :=
  [("nil", "Literal"), ("true", "Literal"), ("false", "Literal"), ("this", "ThisExpr")]

/-- The kind of the node that the form is shown for. -/
def kindName : PrefixForm → String
  | .atom s =>
    if s.toList.head?.any Piece.isLetter then (words.lookup s).getD "Identifier" else "Literal"
  | .list head arguments =>
    (heads.lookup head).getD (if arguments.length = 1 then "UnaryOp" else "BinaryOp")

theorem words_lookup_eq_none {name : String} (h : TokenKind.keywords.lookup name = none) :
    words.lookup name = none := by
  have hreserved : ∀ p ∈ words, ∃ q ∈ TokenKind.keywords, q.1 = p.1 := by decide
  rw [List.lookup_eq_none_iff] at h ⊢
  intro p hp
  obtain ⟨q, hq, hqp⟩ := hreserved p hp
  exact hqp ▸ h q hq

end PrefixForm

/-- The heads that operators of a sort are, from what they are spelled as. -/
theorem Token.IsOf.head {wanted : TokenKind → Bool} {name : Option String} {t : Token}
    (h : t.IsOf wanted)
    (hspelled : ∀ kind, wanted kind = true → kind.isFree = false ∧
      heads.lookup kind.spelling = name ∧ kind.spelling.toList.all isPlain = true) :
    heads.lookup t.lexeme = name ∧ ∀ c ∈ t.lexeme.toList, isPlain c = true := by
  obtain ⟨hfree, hlookup, hplain⟩ := hspelled t.kind h.kind
  rw [h.isLexeme.lexeme_eq hfree]
  exact ⟨hlookup, List.all_eq_true.mp hplain⟩

theorem Token.IsA.unplaced_eq_of_sign {kind : TokenKind} {t t' : Token} (h : t.IsA kind)
    (h' : t'.IsA kind) (hfree : kind.isFree = false) : t.unplaced = t'.unplaced := by
  have hspelled : ∀ {t : Token}, t.IsA kind → t.lexeme = kind.spelling := by
    intro t h
    have hkind : t.kind = kind := beq_iff_eq.mp h.kind
    rw [h.isLexeme.lexeme_eq (hkind ▸ hfree), hkind]
  exact h.unplaced_eq h' ((hspelled h).trans (hspelled h').symm)

theorem Token.IsOf.unary_head {t : Token} (h : t.IsOf TokenKind.isUnary) :
    heads.lookup t.lexeme = none ∧ ∀ c ∈ t.lexeme.toList, isPlain c = true :=
  h.head fun kind hkind => by cases kind <;> first | exact ⟨rfl, rfl, rfl⟩ | cases hkind

theorem Token.IsOf.binary_head {t : Token} (h : t.IsOf TokenKind.isBinary) :
    heads.lookup t.lexeme = none ∧ ∀ c ∈ t.lexeme.toList, isPlain c = true :=
  h.head fun kind hkind => by cases kind <;> first | exact ⟨rfl, rfl, rfl⟩ | cases hkind

theorem Token.IsOf.logical_head {t : Token} (h : t.IsOf TokenKind.isLogical) :
    heads.lookup t.lexeme = some "LogicalOp" ∧ ∀ c ∈ t.lexeme.toList, isPlain c = true :=
  h.head fun kind hkind => by cases kind <;> first | exact ⟨rfl, rfl, rfl⟩ | cases hkind

theorem Token.IsA.isAtom {t : Token} (h : t.IsA .identifier) : IsAtom t.lexeme.toList :=
  isAtom_of_isWord h.name.1

/-! ## Reading the form of an expression -/

section

variable {δ : Type}

theorem Constant.kindName_prefixed {value : Constant} (h : value.isFinite = true) :
    (PrefixForm.atom value.prefixed).kindName = "Literal" := by
  cases value with
  | nil => rfl
  | bool b => cases b <;> rfl
  | number x =>
      obtain ⟨c, cs, htext, hc, -⟩ := Layout.dump_finite h
      have hletter : Piece.isLetter c = false := by
        rcases hc with hc | rfl
        · refine Bool.eq_false_iff.mpr fun hletter => ?_
          rw [Piece.isDigit_of_isLetter hletter] at hc
          cases hc
        · rfl
      simp [PrefixForm.kindName, prefixed, htext, hletter]
  | text s => simp [PrefixForm.kindName, prefixed, Piece.isLetter]

theorem Expr.kindName_form {e : Expr δ} (he : e.Lexical) (hfinite : e.FiniteNumbers) :
    e.form.kindName = e.kindName := by
  cases e with
  | literal value => exact Constant.kindName_prefixed (hfinite value (.head _))
  | unary operator a => simp [form, PrefixForm.kindName, kindName, he.1.unary_head.1]
  | binary a operator b => simp [form, PrefixForm.kindName, kindName, he.2.1.binary_head.1]
  | logical a operator b => simp [form, PrefixForm.kindName, kindName, he.2.1.logical_head.1]
  | var name slot =>
      have hlexical : name.IsA .identifier := he
      obtain ⟨⟨c, cs, htext, hc, -⟩, hlookup⟩ := hlexical.name
      simp [form, PrefixForm.kindName, kindName, htext, hc, words_lookup_eq_none hlookup]
  | _ => rfl

mutual

theorem Expr.legible_form {e : Expr δ} (he : e.Lexical) (hfinite : e.FiniteNumbers) :
    e.form.Legible := by
  cases e with
  | literal value => exact Constant.isAtom_prefixed (hfinite value (.head _)) he
  | unary operator a =>
      exact ⟨he.1.unary_head.2, a.legible_form he.2 (hfinite.part (.head _)), trivial⟩
  | binary a operator b =>
      exact ⟨he.2.1.binary_head.2, a.legible_form he.1 (hfinite.part (.head _)),
        b.legible_form he.2.2 (hfinite.part (.tail _ (.head _))), trivial⟩
  | logical a operator b =>
      exact ⟨he.2.1.logical_head.2, a.legible_form he.1 (hfinite.part (.head _)),
        b.legible_form he.2.2 (hfinite.part (.tail _ (.head _))), trivial⟩
  | conditional a b c =>
      exact ⟨List.all_eq_true.mp rfl, a.legible_form he.1 (hfinite.part (.head _)),
        b.legible_form he.2.1 (hfinite.part (.tail _ (.head _))),
        c.legible_form he.2.2 (hfinite.part (.tail _ (.tail _ (.head _)))), trivial⟩
  | grouping a =>
      have hlexical : a.Lexical := he
      exact ⟨List.all_eq_true.mp rfl, a.legible_form hlexical (hfinite.part (.head _)), trivial⟩
  | var name slot => exact Token.IsA.isAtom he
  | assign name slot a =>
      exact ⟨List.all_eq_true.mp rfl, he.1.isAtom, a.legible_form he.2 (hfinite.part (.head _)),
        trivial⟩
  | call a paren es =>
      exact ⟨List.all_eq_true.mp rfl, a.legible_form he.1 (hfinite.part (.head _)),
        Expr.legible_formAll he.2.2 fun e he => hfinite.part (.tail _ he)⟩
  | get a name =>
      exact ⟨List.all_eq_true.mp rfl, he.2.isAtom, a.legible_form he.1 (hfinite.part (.head _)),
        trivial⟩
  | set a name b =>
      exact ⟨List.all_eq_true.mp rfl, he.2.1.isAtom, a.legible_form he.1 (hfinite.part (.head _)),
        b.legible_form he.2.2 (hfinite.part (.tail _ (.head _))), trivial⟩
  | thisRef keyword slot =>
      exact isAtom_of_isWord ⟨'t', ['h', 'i', 's'], rfl, rfl, List.all_eq_true.mp rfl⟩
  | superRef keyword method slot => exact ⟨List.all_eq_true.mp rfl, he.2.isAtom, trivial⟩
  | vector bracket es =>
      exact ⟨List.all_eq_true.mp rfl, Expr.legible_formAll he.2 fun e he => hfinite.part he⟩

theorem Expr.legible_formAll {es : List (Expr δ)} (hes : Expr.LexicalAll es)
    (hfinite : ∀ e ∈ es, e.FiniteNumbers) : PrefixForm.LegibleAll (Expr.formAll es) := by
  cases es with
  | nil => exact trivial
  | cons e es =>
      obtain ⟨he, hrest⟩ := List.forall_mem_cons.mp hfinite
      exact ⟨e.legible_form hes.1 he, Expr.legible_formAll hes.2 hrest⟩

end

end

mutual

/-- The form of an expression tells which one it is. -/
theorem Expr.form_injective {e e' : Expr Unit} (he : e.Lexical) (he' : e'.Lexical)
    (hfinite : e.FiniteNumbers) (hfinite' : e'.FiniteNumbers) (h : e.form = e'.form) :
    e.unplaced = e'.unplaced := by
  have hkind : e.kindName = e'.kindName := by
    rw [← Expr.kindName_form he hfinite, h, Expr.kindName_form he' hfinite']
  match e with
  | .literal value =>
      cases e' with
      | literal value' =>
          have hvalue := Constant.prefixed_injective (hfinite value (.head _))
            (hfinite' value' (.head _)) (PrefixForm.atom.inj h)
          exact congrArg Expr.literal hvalue
      | _ => exact absurd hkind (by simp [Expr.kindName])
  | .unary operator a =>
      cases e' with
      | unary operator' a' =>
          simp only [form, PrefixForm.list.injEq, List.cons.injEq, and_true] at h
          have ha := Expr.form_injective he.2 he'.2 (hfinite.part (.head _))
            (hfinite'.part (.head _)) h.2
          exact congrArg₂ Expr.unary (he.1.unplaced_eq he'.1 h.1) ha
      | _ => exact absurd hkind (by simp [Expr.kindName])
  | .binary a operator b =>
      cases e' with
      | binary a' operator' b' =>
          simp only [form, PrefixForm.list.injEq, List.cons.injEq, and_true] at h
          have ha := Expr.form_injective he.1 he'.1 (hfinite.part (.head _))
            (hfinite'.part (.head _)) h.2.1
          have hb := Expr.form_injective he.2.2 he'.2.2 (hfinite.part (.tail _ (.head _)))
            (hfinite'.part (.tail _ (.head _))) h.2.2
          have hnode := congr (congrArg₂ Expr.binary ha (he.2.1.unplaced_eq he'.2.1 h.1)) hb
          exact hnode
      | _ => exact absurd hkind (by simp [Expr.kindName])
  | .logical a operator b =>
      cases e' with
      | logical a' operator' b' =>
          simp only [form, PrefixForm.list.injEq, List.cons.injEq, and_true] at h
          have ha := Expr.form_injective he.1 he'.1 (hfinite.part (.head _))
            (hfinite'.part (.head _)) h.2.1
          have hb := Expr.form_injective he.2.2 he'.2.2 (hfinite.part (.tail _ (.head _)))
            (hfinite'.part (.tail _ (.head _))) h.2.2
          have hnode := congr (congrArg₂ Expr.logical ha (he.2.1.unplaced_eq he'.2.1 h.1)) hb
          exact hnode
      | _ => exact absurd hkind (by simp [Expr.kindName])
  | .conditional a b c =>
      cases e' with
      | conditional a' b' c' =>
          simp only [form, PrefixForm.list.injEq, List.cons.injEq, and_true, true_and] at h
          have ha := Expr.form_injective he.1 he'.1 (hfinite.part (.head _))
            (hfinite'.part (.head _)) h.1
          have hb := Expr.form_injective he.2.1 he'.2.1 (hfinite.part (.tail _ (.head _)))
            (hfinite'.part (.tail _ (.head _))) h.2.1
          have hc := Expr.form_injective he.2.2 he'.2.2
            (hfinite.part (.tail _ (.tail _ (.head _))))
            (hfinite'.part (.tail _ (.tail _ (.head _)))) h.2.2
          have hnode := congr (congrArg₂ Expr.conditional ha hb) hc
          exact hnode
      | _ => exact absurd hkind (by simp [Expr.kindName])
  | .grouping a =>
      cases e' with
      | grouping a' =>
          have hlexical : a.Lexical := he
          have hlexical' : a'.Lexical := he'
          simp only [form, PrefixForm.list.injEq, List.cons.injEq, and_true, true_and] at h
          exact congrArg Expr.grouping (Expr.form_injective hlexical hlexical'
            (hfinite.part (.head _)) (hfinite'.part (.head _)) h)
      | _ => exact absurd hkind (by simp [Expr.kindName])
  | .var name slot =>
      cases e' with
      | var name' slot' =>
          have hname := Token.IsOf.unplaced_eq he he' (PrefixForm.atom.inj h)
          exact congrArg (Expr.var · ()) hname
      | _ => exact absurd hkind (by simp [Expr.kindName])
  | .assign name slot a =>
      cases e' with
      | assign name' slot' a' =>
          simp only [form, PrefixForm.list.injEq, List.cons.injEq, PrefixForm.atom.injEq, and_true,
            true_and] at h
          have ha := Expr.form_injective he.2 he'.2 (hfinite.part (.head _))
            (hfinite'.part (.head _)) h.2
          exact congrArg₂ (Expr.assign · ()) (he.1.unplaced_eq he'.1 h.1) ha
      | _ => exact absurd hkind (by simp [Expr.kindName])
  | .call a paren es =>
      cases e' with
      | call a' paren' es' =>
          simp only [form, PrefixForm.list.injEq, List.cons.injEq, true_and] at h
          have ha := Expr.form_injective he.1 he'.1 (hfinite.part (.head _))
            (hfinite'.part (.head _)) h.1
          have hes := Expr.formAll_injective he.2.2 he'.2.2
            (fun e he => hfinite.part (.tail _ he)) (fun e he => hfinite'.part (.tail _ he)) h.2
          have hnode := congr (congrArg₂ Expr.call ha (he.2.1.unplaced_eq_of_sign he'.2.1 rfl)) hes
          exact hnode
      | _ => exact absurd hkind (by simp [Expr.kindName])
  | .get a name =>
      cases e' with
      | get a' name' =>
          simp only [form, PrefixForm.list.injEq, List.cons.injEq, PrefixForm.atom.injEq, and_true,
            true_and] at h
          have ha := Expr.form_injective he.1 he'.1 (hfinite.part (.head _))
            (hfinite'.part (.head _)) h.2
          exact congrArg₂ Expr.get ha (he.2.unplaced_eq he'.2 h.1)
      | _ => exact absurd hkind (by simp [Expr.kindName])
  | .set a name b =>
      cases e' with
      | set a' name' b' =>
          simp only [form, PrefixForm.list.injEq, List.cons.injEq, PrefixForm.atom.injEq, and_true,
            true_and] at h
          have ha := Expr.form_injective he.1 he'.1 (hfinite.part (.head _))
            (hfinite'.part (.head _)) h.2.1
          have hb := Expr.form_injective he.2.2 he'.2.2 (hfinite.part (.tail _ (.head _)))
            (hfinite'.part (.tail _ (.head _))) h.2.2
          have hnode := congr (congrArg₂ Expr.set ha (he.2.1.unplaced_eq he'.2.1 h.1)) hb
          exact hnode
      | _ => exact absurd hkind (by simp [Expr.kindName])
  | .thisRef keyword slot =>
      cases e' with
      | thisRef keyword' slot' =>
          exact congrArg (Expr.thisRef · ()) (Token.IsA.unplaced_eq_of_sign he he' rfl)
      | _ => exact absurd hkind (by simp [Expr.kindName])
  | .superRef keyword method slot =>
      cases e' with
      | superRef keyword' method' slot' =>
          simp only [form, PrefixForm.list.injEq, List.cons.injEq, PrefixForm.atom.injEq, and_true,
            true_and] at h
          exact congrArg₂ (Expr.superRef · · ()) (he.1.unplaced_eq_of_sign he'.1 rfl)
            (he.2.unplaced_eq he'.2 h)
      | _ => exact absurd hkind (by simp [Expr.kindName])
  | .vector bracket es =>
      cases e' with
      | vector bracket' es' =>
          simp only [form, PrefixForm.list.injEq, true_and] at h
          have hes := Expr.formAll_injective he.2 he'.2 (fun e he => hfinite.part he)
            (fun e he => hfinite'.part he) h
          exact congrArg₂ Expr.vector (he.1.unplaced_eq_of_sign he'.1 rfl) hes
      | _ => exact absurd hkind (by simp [Expr.kindName])

theorem Expr.formAll_injective {es es' : List (Expr Unit)} (hes : Expr.LexicalAll es)
    (hes' : Expr.LexicalAll es') (hfinite : ∀ e ∈ es, e.FiniteNumbers)
    (hfinite' : ∀ e ∈ es', e.FiniteNumbers) (h : Expr.formAll es = Expr.formAll es') :
    Expr.mapAll Token.unplaced id es = Expr.mapAll Token.unplaced id es' := by
  match es with
  | [] =>
      cases es' with
      | nil => rfl
      | cons e' es' => cases h
  | e :: es =>
      cases es' with
      | nil => cases h
      | cons e' es' =>
          obtain ⟨hform, hforms⟩ := List.cons.inj h
          obtain ⟨he, hrest⟩ := List.forall_mem_cons.mp hfinite
          obtain ⟨he', hrest'⟩ := List.forall_mem_cons.mp hfinite'
          exact congrArg₂ List.cons (Expr.form_injective hes.1 hes'.1 he he' hform)
            (Expr.formAll_injective hes.2 hes'.2 hrest hrest' hforms)

end

/-- The prefix form of an expression tells which one it is, if no number is infinite. -/
theorem Expr.prefixed_injective {e e' : Expr Unit} (he : e.Lexical) (he' : e'.Lexical)
    (hfinite : e.FiniteNumbers) (hfinite' : e'.FiniteNumbers) (h : e.prefixed = e'.prefixed) :
    e.unplaced = e'.unplaced := by
  have htext : e.form.text ++ [] = e'.form.text ++ [] := by
    rw [← e.prefixed_toList, h, e'.prefixed_toList]
  have hstops : Stops [] := rfl
  have hforms := PrefixForm.text_injective (e.legible_form he hfinite)
    (e'.legible_form he' hfinite') hstops hstops htext
  exact Expr.form_injective he he' hfinite hfinite' hforms.1

end Lox
