import Lox.Proofs.Context.Rendering
import Lox.Proofs.Imports.Expansion
import Lox.Proofs.Joining.Reading
import Lox.Proofs.Parsing.Unparse
import Lox.Proofs.Printing.Digits
import Lox.Proofs.Printing.Doubles

/-!
# Reading what was printed

Data are constants other than strings, and vectors of data. A value of a running program is
described by such data if the vectors in it can be followed to their ends; then no vector holds
itself, at whatever depth, and the text of the value depends on what describes it alone. It does
not matter where in the store the vectors lie, or whether one of them occurs twice.

The text of data is an expression: constants are read as themselves, the sign of a number as an
operator, and vectors as the elements between brackets. Since every part of the text is followed
by a comma, a bracket or the semicolon at the end, no lexeme runs on into the next part. So one
walk over the data gives the pieces of the text, the tokens they are and the tree these are.
-/

namespace Lox

/-- Data that a program can write down. -/
inductive Shape where
  | nil
  | bool (b : Bool)
  | number (x : Float)
  | vector (elements : List Shape)

namespace Shape

mutual

/-- The numbers are whole and below `10 ^ 16`, and no vector is too long to be written. -/
def Plain : Shape → Prop
  | nil => True
  | bool _ => True
  | number x => ∃ i, (Binary.ofFloat x).toInt? = some i ∧ i.natAbs < 10 ^ 16
  | vector ds => ds.length ≤ 255 ∧ PlainAll ds

def PlainAll : List Shape → Prop
  | [] => True
  | d :: ds => d.Plain ∧ PlainAll ds

end

mutual

/-- The value is that constant, or a vector whose elements are described in order. -/
inductive Describes (objects : Objects) : Shape → Value → Prop
  | nil : Describes objects .nil .nil
  | bool (b : Bool) : Describes objects (.bool b) (.bool b)
  | number (x : Float) : Describes objects (.number x) (.number x)
  | vector {ds : List Shape} {ref : Nat} {inst : Instance} {elements : Array Value} :
      objects[ref]? = some inst → inst.elements = some elements →
      DescribesAll objects ds elements.toList → Describes objects (.vector ds) (.object ref)

inductive DescribesAll (objects : Objects) : List Shape → List Value → Prop
  | nil : DescribesAll objects [] []
  | cons {d : Shape} {ds : List Shape} {v : Value} {vs : List Value} :
      Describes objects d v → DescribesAll objects ds vs →
      DescribesAll objects (d :: ds) (v :: vs)

end

mutual

/-- The text of the data. -/
def text : Shape → String
  | nil => "nil"
  | bool b => if b then "true" else "false"
  | number x => Layout.display.number x
  | vector ds => "[" ++ String.intercalate ", " (texts ds) ++ "]"

def texts : List Shape → List String
  | [] => []
  | d :: ds => d.text :: texts ds

end

mutual

/-- The steps down to the end of the data, among elements as well as into them. A number takes
two, since it may have a sign. -/
def steps : Shape → Nat
  | nil => 1
  | bool _ => 1
  | number _ => 2
  | vector ds => stepsAll ds + 1

def stepsAll : List Shape → Nat
  | [] => 1
  | d :: ds => max d.steps (stepsAll ds) + 1

end

variable {objects : Objects}

mutual

/-- Only one shape describes a value. -/
theorem Describes.unique {d d' : Shape} {v : Value} (h : Describes objects d v)
    (h' : Describes objects d' v) : d = d' := by
  match h, h' with
  | .nil, .nil => rfl
  | .bool _, .bool _ => rfl
  | .number _, .number _ => rfl
  | .vector hinst helements hds, .vector hinst' helements' hds' =>
      obtain rfl := Option.some.inj (hinst.symm.trans hinst')
      obtain rfl := Option.some.inj (helements.symm.trans helements')
      rw [hds.unique hds']

theorem DescribesAll.unique {ds ds' : List Shape} {vs : List Value}
    (h : DescribesAll objects ds vs) (h' : DescribesAll objects ds' vs) : ds = ds' := by
  match h, h' with
  | .nil, .nil => rfl
  | .cons hd hds, .cons hd' hds' => rw [hd.unique hd', hds.unique hds']

end

mutual

/-- What is made later does not change what describes a value. -/
theorem Describes.later {d : Shape} {v : Value} (h : Describes objects d v) (made : Objects) :
    Describes (objects ++ made) d v := by
  match h with
  | .nil => exact .nil
  | .bool b => exact .bool b
  | .number x => exact .number x
  | .vector hinst helements hds =>
      have hlt := (Array.getElem?_eq_some_iff.mp hinst).1
      exact .vector ((Array.getElem?_append_left hlt).trans hinst) helements (hds.later made)

theorem DescribesAll.later {ds : List Shape} {vs : List Value} (h : DescribesAll objects ds vs)
    (made : Objects) : DescribesAll (objects ++ made) ds vs := by
  match h with
  | .nil => exact .nil
  | .cons hd hds => exact .cons (hd.later made) (hds.later made)

end

/-! ## The text of a value -/

/-- The vectors on the path were entered on the way to a place with fewer steps left. -/
structure Path (objects : Objects) (path : List Nat) (steps : Nat) : Prop where
  nodup : path.Nodup
  outer : ∀ ref ∈ path, ∃ d : Shape, Describes objects d (.object ref) ∧ steps < d.steps

theorem Path.mono {path : List Nat} {n k : Nat} (h : Path objects path n) (hk : k ≤ n) :
    Path objects path k := by
  refine ⟨h.nodup, fun ref href => ?_⟩
  obtain ⟨d, hd, hlt⟩ := h.outer ref href
  exact ⟨d, hd, Nat.lt_of_le_of_lt hk hlt⟩

/-- A vector is not on the path to it, since it would have more steps than itself. -/
theorem Path.enter {path : List Nat} {ds : List Shape} {ref : Nat}
    (h : Path objects path (vector ds).steps)
    (hd : Describes objects (vector ds) (.object ref)) :
    ref ∉ path ∧ Path objects (ref :: path) (stepsAll ds) := by
  have hnot : ref ∉ path := by
    intro hmem
    obtain ⟨d, hd', hlt⟩ := h.outer ref hmem
    rw [hd.unique hd'] at hlt
    exact Nat.lt_irrefl _ hlt
  have hlt : stepsAll ds < (vector ds).steps := by
    rw [steps]
    exact Nat.lt_succ_self _
  refine ⟨hnot, List.nodup_cons.mpr ⟨hnot, h.nodup⟩, fun r hr => ?_⟩
  rcases List.mem_cons.mp hr with rfl | hr
  · exact ⟨_, hd, hlt⟩
  · exact (h.mono hlt.le).outer r hr

theorem Path.length_le {path : List Nat} {n : Nat} (h : Path objects path n) :
    path.length ≤ objects.size := by
  have hlt : ∀ ref ∈ path.toFinset, ref < objects.size := by
    intro ref href
    obtain ⟨_, hd, _⟩ := h.outer ref (List.mem_toFinset.mp href)
    cases hd with
    | vector hinst => exact (Array.getElem?_eq_some_iff.mp hinst).1
  rw [← List.toFinset_card_of_nodup h.nodup]
  exact Value.card_writing_le hlt

mutual

/-- A described value is written as what describes it, wherever it stands. -/
theorem Describes.renderIn {d : Shape} {v : Value} {path : List Nat} {budget : Nat}
    (h : Describes objects d v) (hpath : Path objects path d.steps)
    (hbudget : objects.size < budget + path.length) :
    v.renderIn objects budget path = d.text := by
  match h with
  | .nil | .bool _ | .number _ => rw [Value.renderIn, text]
  | @Describes.vector _ ds ref inst elements hinst helements hds =>
      obtain ⟨hnot, hpath⟩ := hpath.enter (.vector hinst helements hds)
      have hlength := hpath.length_le
      rw [List.length_cons] at hlength
      obtain ⟨k, rfl⟩ : ∃ k, budget = k + 1 := ⟨budget - 1, by omega⟩
      have htexts : elements.toList.map (Value.renderIn objects k (ref :: path)) = texts ds :=
        hds.renderIn hpath (by rw [List.length_cons]; omega)
      have hcontains : path.contains ref = false := by simpa using hnot
      simp only [Value.renderIn, hinst, helements, hcontains, Bool.false_eq_true, if_false, htexts,
        text]

theorem DescribesAll.renderIn {ds : List Shape} {vs : List Value} {path : List Nat}
    {budget : Nat} (h : DescribesAll objects ds vs) (hpath : Path objects path (stepsAll ds))
    (hbudget : objects.size < budget + path.length) :
    vs.map (Value.renderIn objects budget path) = texts ds := by
  match h with
  | .nil => rw [texts, List.map_nil]
  | .cons hd hds =>
      rw [stepsAll] at hpath
      rw [List.map_cons, texts, hd.renderIn (hpath.mono (by omega)) hbudget,
        hds.renderIn (hpath.mono (by omega)) hbudget]

end

/-- The text of a value is that of the data that describe it. -/
theorem Describes.render {d : Shape} {v : Value} (h : Describes objects d v) :
    v.render objects = d.text :=
  h.renderIn ⟨List.nodup_nil, fun _ hr => absurd hr List.not_mem_nil⟩ (Nat.lt_succ_self _)

end Shape

open Grammar Parse Piece

theorem Grammar.Unary.assignment {ts : List Token} {e : Expr Unit} (h : Unary ts e) :
    Assignment ts e :=
  Derives.le (q := 9) h (Nat.zero_le 9)

namespace Shape

mutual

/-- The tree writes the data down. -/
inductive Written {σ : Type} : Shape → Expr σ → Prop
  | nil : Written .nil (.literal .nil)
  | bool (b : Bool) : Written (.bool b) (.literal (.bool b))
  | number (x : Float) : Written (.number x) (.literal (.number x))
  | negated {minus : Token} (x : Float) : minus.kind = .minus →
      Written (.number (-x)) (.unary minus (.literal (.number x)))
  | vector {ds : List Shape} {bracket : Token} {es : List (Expr σ)} :
      WrittenAll ds es → Written (.vector ds) (.vector bracket es)

inductive WrittenAll {σ : Type} : List Shape → List (Expr σ) → Prop
  | nil : WrittenAll [] []
  | cons {d : Shape} {ds : List Shape} {e : Expr σ} {es : List (Expr σ)} :
      Written d e → WrittenAll ds es → WrittenAll (d :: ds) (e :: es)

end

theorem WrittenAll.length {σ : Type} {ds : List Shape} {es : List (Expr σ)}
    (h : WrittenAll ds es) : es.length = ds.length := by
  match h with
  | .nil => rfl
  | .cons _ hs => rw [List.length_cons, List.length_cons, hs.length]

mutual

/-- Nothing in data has to be resolved. -/
theorem Written.resolve {d : Shape} {e : Expr Unit} (h : Written d e) (c : ClassKind)
    (s : Scopes) : Written d (e.resolve c s) ∧ e.scopeFaults c s = [] := by
  match h with
  | .nil | .bool _ | .number _ =>
      rw [Expr.resolve, Expr.scopeFaults]
      exact ⟨by constructor, rfl⟩
  | .negated x hminus =>
      rw [Expr.resolve, Expr.resolve, Expr.scopeFaults, Expr.scopeFaults]
      exact ⟨.negated x hminus, rfl⟩
  | .vector hs =>
      rw [Expr.resolve, Expr.scopeFaults]
      obtain ⟨hs, hnone⟩ := hs.resolve c s
      exact ⟨.vector hs, hnone⟩

theorem WrittenAll.resolve {ds : List Shape} {es : List (Expr Unit)} (h : WrittenAll ds es)
    (c : ClassKind) (s : Scopes) :
    WrittenAll ds (Expr.resolveAll c s es) ∧ Expr.scopeFaultsAll c s es = [] := by
  match h with
  | .nil => exact ⟨.nil, rfl⟩
  | .cons h hs =>
      rw [Expr.resolveAll, Expr.scopeFaultsAll]
      obtain ⟨h, hnone⟩ := h.resolve c s
      obtain ⟨hs, hnone'⟩ := hs.resolve c s
      exact ⟨.cons h hs, by rw [hnone, hnone']; rfl⟩

end

/-! ## Pieces -/

/-- The text goes on with a comma, a closing bracket or a semicolon. -/
inductive Closing : List Char → Prop
  | comma (rest : List Char) : Closing (',' :: rest)
  | bracket (rest : List Char) : Closing (']' :: rest)
  | semicolon (rest : List Char) : Closing (';' :: rest)

theorem Closing.head {r : List Char} (h : Closing r) {q : Char → Bool}
    (hq : q ',' = false ∧ q ']' = false ∧ q ';' = false) : r.head?.any q = false := by
  cases h with
  | comma => exact hq.1
  | bracket => exact hq.2.1
  | semicolon => exact hq.2.2

/-- The pieces of the text of data, and what is read from them at any place. -/
structure SpelledBy (d : Shape) (ps : List Piece) : Prop where
  text : textOf ps = d.text.toList
  tiled : ∀ rest, Closing (textOf rest) → Tiled rest → Tiled (ps ++ rest)
  whole : ∀ piece ∈ ps, piece.fault? = none
  reads : ∀ p, ∃ e, Unary (tokensFrom p ps) e ∧ Written d e

/-- The same of data with commas between them. -/
structure SpelledAllBy (ds : List Shape) (ps : List Piece) : Prop where
  text : textOf ps = (String.intercalate ", " (texts ds)).toList
  tiled : ∀ rest, Closing (textOf rest) → Tiled rest → Tiled (ps ++ rest)
  whole : ∀ piece ∈ ps, piece.fault? = none
  reads : ∀ p, ∃ es, Grammar.Arguments (tokensFrom p ps) es ∧ WrittenAll ds es

/-- A word that is a constant. -/
theorem spelledBy_word {d : Shape} {word : List Char} {value : Constant}
    (hword : IsWord word) (htext : d.text.toList = word)
    (hprimary : ∀ t : Token, t.kind = .ofWord (String.ofList word) → Primary [t] (.literal value))
    (hd : Written d (.literal value : Expr Unit)) : d.SpelledBy [ofWord word] := by
  obtain ⟨c, cs, rfl, hc, hcs⟩ := hword
  refine ⟨?_, fun rest hrest htiled => ⟨⟨c, cs, rfl, ?_⟩, htiled⟩, ?_, fun p => ?_⟩
  · rw [htext, textOf_cons]
    exact List.append_nil _
  · exact first_ofWord hc hcs (hrest.head (by decide))
  · exact List.forall_mem_singleton.mpr rfl
  · exact ⟨_, .call (.primary (hprimary _ rfl)), hd⟩

/-- The piece of some digits. -/
def ofDigits (digits : List Char) : Piece :=
  ⟨.lexeme .number, digits⟩

theorem first_ofDigits {c : Char} {cs r : List Char} (h : ∀ d ∈ c :: cs, isDigit d = true)
    (hr : Closing r) : first c (cs ++ r) = (ofDigits (c :: cs), r) := by
  obtain ⟨hc, hcs⟩ := List.forall_mem_cons.mp h
  obtain ⟨htake, hdrop⟩ := takeWhile_append_stop hcs (hr.head (q := isDigit) (by decide))
  have hfraction : fraction r = [] := by cases hr <;> rfl
  rw [first_of_isDigit hc, afterDigit, htake, hdrop, hfraction, List.append_nil]
  rfl

/-- A number is its digits, with a sign in front of them if it has one. -/
theorem spelledBy_number {x : Float} (h : (number x).Plain) : ∃ ps, (number x).SpelledBy ps := by
  rw [Plain] at h
  obtain ⟨i, hwhole, hsmall⟩ := h
  obtain ⟨negative, n, htext, hx⟩ := number_readsBack hwhole hsmall
  obtain ⟨c, cs, hdigits⟩ := List.exists_cons_of_ne_nil (Nat.toDigits_ne_nil (n := n) (b := 10))
  have hall : ∀ d ∈ c :: cs, isDigit d = true := fun d hd =>
    isDigit_of_mem_toDigits (hdigits ▸ hd)
  have htiled : ∀ rest, Closing (textOf rest) → Tiled rest → Tiled (ofDigits (c :: cs) :: rest) :=
    fun rest hrest htiled => ⟨⟨c, cs, rfl, first_ofDigits hall hrest⟩, htiled⟩
  have hprimary : ∀ t : Token, t.kind = .number → t.literal = .number (readNumeral (c :: cs)) →
      Unary [t] (.literal (.number (readNumeral (c :: cs)))) := fun t hk hliteral =>
    hliteral ▸ .call (.primary (.number hk))
  rw [hdigits] at htext hx
  cases negative with
  | false =>
      obtain rfl : x = readNumeral (c :: cs) := hx
      refine ⟨[ofDigits (c :: cs)], ?_, htiled, List.forall_mem_singleton.mpr rfl, fun p => ?_⟩
      · rw [text, htext]
        simp [textOf, ofDigits]
      · exact ⟨_, hprimary _ rfl rfl, .number _⟩
  | true =>
      obtain rfl : x = -readNumeral (c :: cs) := hx
      refine ⟨[⟨.lexeme .minus, ['-']⟩, ofDigits (c :: cs)], ?_, fun rest hrest hrest' => ?_, ?_,
        fun p => ?_⟩
      · rw [text, htext]
        simp [textOf, ofDigits]
      · exact ⟨⟨'-', [], rfl, rfl⟩, htiled rest hrest hrest'⟩
      · exact List.forall_mem_cons.mpr ⟨rfl, List.forall_mem_singleton.mpr rfl⟩
      · exact ⟨_, .operator (.inr rfl) (hprimary _ rfl rfl), .negated _ rfl⟩

mutual

theorem Plain.spelled {d : Shape} (h : d.Plain) : ∃ ps, d.SpelledBy ps := by
  match d with
  | .nil =>
      exact ⟨_, spelledBy_word ⟨'n', ['i', 'l'], rfl, rfl, List.all_eq_true.mp (by decide)⟩
        (by simp [text]) (fun _ => .nil) .nil⟩
  | .bool true =>
      exact ⟨_, spelledBy_word ⟨'t', ['r', 'u', 'e'], rfl, rfl, List.all_eq_true.mp (by decide)⟩
        (by simp [text]) (fun _ => .true) (.bool true)⟩
  | .bool false =>
      exact ⟨_, spelledBy_word
        ⟨'f', ['a', 'l', 's', 'e'], rfl, rfl, List.all_eq_true.mp (by decide)⟩
        (by simp [text]) (fun _ => .false) (.bool false)⟩
  | .number x => exact spelledBy_number h
  | .vector ds =>
      rw [Plain] at h
      obtain ⟨ps, hps⟩ := PlainAll.spelled h.2 h.1
      refine ⟨⟨.lexeme .leftBracket, ['[']⟩ :: ps ++ [⟨.lexeme .rightBracket, [']']⟩], ?_,
        fun rest _ hrest => ?_, ?_, fun p => ?_⟩
      · rw [text, List.cons_append, textOf_cons, textOf_append, hps.text]
        simp [textOf]
      · rw [List.cons_append, List.cons_append, List.append_assoc]
        exact ⟨⟨'[', [], rfl, rfl⟩, hps.tiled _ (.bracket _) ⟨⟨']', [], rfl, rfl⟩, hrest⟩⟩
      · exact List.forall_mem_append.mpr ⟨List.forall_mem_cons.mpr ⟨rfl, hps.whole⟩,
          List.forall_mem_singleton.mpr rfl⟩
      · rw [List.cons_append, tokensFrom_cons, tokensFrom_append]
        obtain ⟨es, hes, hds⟩ := hps.reads (p.after ['['])
        exact ⟨_, .call (.primary (.vector rfl hes rfl)), .vector hds⟩

theorem PlainAll.spelled {ds : List Shape} (h : PlainAll ds) (hlength : ds.length ≤ 255) :
    ∃ ps, SpelledAllBy ds ps := by
  match ds with
  | [] =>
      refine ⟨[], ?_, fun _ _ hrest => hrest, fun _ h => absurd h List.not_mem_nil, fun _ => ?_⟩
      · rw [texts, String.intercalate_nil]
        rfl
      · exact ⟨[], .none, .nil⟩
  | [d] =>
      rw [PlainAll] at h
      obtain ⟨ps, hps⟩ := h.1.spelled
      refine ⟨ps, ?_, hps.tiled, hps.whole, fun p => ?_⟩
      · rw [texts, texts, String.intercalate_singleton, hps.text]
      · obtain ⟨e, he, hd⟩ := hps.reads p
        exact ⟨[e], .some (.last he.assignment) (Nat.le_add_left 1 254), .cons hd .nil⟩
  | d :: d' :: ds =>
      rw [PlainAll] at h
      obtain ⟨ps, hps⟩ := h.1.spelled
      obtain ⟨qs, hqs⟩ := PlainAll.spelled h.2 (Nat.le_of_succ_le hlength)
      refine ⟨ps ++ ⟨.lexeme .comma, [',']⟩ :: ⟨.blank, [' ']⟩ :: qs, ?_,
        fun rest hrest htiled => ?_, ?_, fun p => ?_⟩
      · rw [textOf_append, textOf_cons, textOf_cons, hps.text, hqs.text]
        simp [texts, String.intercalate_cons_cons]
      · rw [List.append_assoc]
        exact hps.tiled _ (.comma _)
          ⟨⟨',', [], rfl, rfl⟩, ⟨' ', [], rfl, rfl⟩, hqs.tiled rest hrest htiled⟩
      · exact List.forall_mem_append.mpr ⟨hps.whole,
          List.forall_mem_cons.mpr ⟨rfl, List.forall_mem_cons.mpr ⟨rfl, hqs.whole⟩⟩⟩
      · rw [tokensFrom_append, tokensFrom_cons, tokensFrom_cons]
        obtain ⟨e, he, hd⟩ := hps.reads p
        obtain ⟨es, hes, hds⟩ := hqs.reads
          ((((p.after (textOf ps)).after [',']).after [' ']))
        have hlength : (e :: es).length ≤ maxArguments := by
          rw [List.length_cons, hds.length]
          exact hlength
        generalize tokensFrom _ qs = us at hes ⊢
        cases hes with
        | none => cases hds
        | some hes => exact ⟨e :: es, .some (.more he.assignment rfl hes) hlength, .cons hd hds⟩

end

/-! ## The source -/

/-- The text of data with a semicolon behind it is a statement, and nothing is wrong with it. -/
theorem Plain.readsAs {d : Shape} (h : d.Plain) :
    ∃ e : Expr Unit, Written d e ∧ ReadsAs (d.text ++ ";").toList [.expression e] ∧
      ImportFree (scan (d.text ++ ";").toList).tokens := by
  obtain ⟨ps, hps⟩ := h.spelled
  have hpieces : pieces (d.text ++ ";").toList = ps ++ [⟨.lexeme .semicolon, [';']⟩] := by
    refine pieces_eq_iff.mpr ⟨hps.tiled _ (.semicolon _) ⟨⟨';', [], rfl, rfl⟩, trivial⟩, ?_⟩
    rw [textOf_append, hps.text]
    simp [textOf]
  obtain ⟨e, he, hd⟩ := hps.reads {}
  have htokens := scan_tokens_eq (d.text ++ ";").toList
  rw [hpieces, tokensFrom_append, tokensFrom_cons] at htokens
  have hstatement : ∀ semicolon eof : Token, semicolon.kind = .semicolon → eof.kind = .eof →
      Program .nearest (tokensFrom {} ps ++ [semicolon] ++ [eof]) [.expression e] ∧
        ImportFree (tokensFrom {} ps ++ [semicolon] ++ [eof]) := by
    intro semicolon eof hsemicolon heof
    have hmk := ExpressionStatement.mk he.assignment hsemicolon
    exact ⟨.declaration (.statement (.expression hmk)) (.finish heof), by
      simp [he.importFree, hsemicolon, heof]⟩
  obtain ⟨hprogram, hfree⟩ : Program .nearest (scan (d.text ++ ";").toList).tokens
      [.expression e] ∧ ImportFree (scan (d.text ++ ";").toList).tokens := by
    rw [htokens]
    exact hstatement _ _ rfl rfl
  refine ⟨e, hd, ⟨?_, hprogram, ?_⟩, hfree⟩
  · rw [scan_faults_eq_nil, hpieces]
    exact List.forall_mem_append.mpr ⟨hps.whole, List.forall_mem_singleton.mpr rfl⟩
  · rw [Stmt.scopeFaultsAll, Stmt.scopeFaults, (hd.resolve .none []).2]
    rfl

/-- It is accepted, as the same statement under every limit that lets a fault pass. -/
theorem Plain.accepted {d : Shape} (h : d.Plain) :
    ∃ e : Expr Slot, Written d e ∧ ∀ im limit name, limit.reachedBy 0 = some false →
      (UnitReading.ofSource im limit name false (d.text ++ ";")).accepted? =
        some [.expression e] := by
  obtain ⟨e, hd, hreads, hfree⟩ := h.readsAs
  refine ⟨e.resolve .none [], (hd.resolve .none []).1, fun im limit name hlimit => ?_⟩
  exact (accepted?_eq_some im limit name hfree hlimit).mpr ⟨_, hreads, rfl⟩

end Shape

end Lox
