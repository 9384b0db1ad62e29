import Lox.Text.Quoted
import Mathlib.Algebra.Group.Nat.Defs

/-!
# Quoted texts are told apart

Between quotes every character is written in a way that says where it ends and which one it
is: as itself, after a backslash, or by its code in a fixed number of digits. So two texts
never look the same between quotes, and a quoted text stays on one line.
-/

namespace Lox
namespace Quoted

open Nat (toDigits)

/-! ## Hexadecimal digits -/

/-- The value of a hexadecimal digit. -/
def digitValue (c : Char) : Nat :=
  if c.toNat < 'a'.toNat then c.toNat - '0'.toNat else c.toNat - 'a'.toNat + 10

/-- The number that hexadecimal digits stand for. -/
def ofHex (digits : List Char) : Nat :=
  digits.foldl (fun n c => 16 * n + digitValue c) 0

theorem digitValue_digitChar {d : Nat} (h : d < 16) : digitValue d.digitChar = d := by
  revert d
  decide

theorem digitChar_ne_newline {d : Nat} (h : d < 16) : d.digitChar ≠ '\n' := by
  revert d
  decide

theorem toDigits_induction {P : Nat → List Char → Prop}
    (single : ∀ d, d < 16 → P d [d.digitChar])
    (more : ∀ n d ds, d < 16 → P n ds → P (16 * n + d) (ds ++ [d.digitChar])) (n : Nat) :
    P n (toDigits 16 n) := by
  induction n using Nat.strongRecOn with
  | ind n ih =>
      rw [Nat.toDigits_eq_if (by decide)]
      split
      · next hlt => exact single n hlt
      · next hle =>
          have hstep := more (n / 16) (n % 16) _ (Nat.mod_lt n (by decide))
            (ih (n / 16) (by omega))
          rwa [Nat.div_add_mod] at hstep

theorem ofHex_toDigits (n : Nat) : ofHex (toDigits 16 n) = n := by
  refine toDigits_induction (P := fun n ds => ofHex ds = n) ?_ ?_ n
  · intro d hd
    rw [ofHex, List.foldl_cons, List.foldl_nil, Nat.mul_zero, Nat.zero_add,
      digitValue_digitChar hd]
  · intro n d ds hd ih
    rw [ofHex, List.foldl_append, ← ofHex, ih, List.foldl_cons, List.foldl_nil,
      digitValue_digitChar hd]

theorem newline_not_mem_toDigits (n : Nat) : '\n' ∉ toDigits 16 n := by
  refine toDigits_induction (P := fun _ ds => '\n' ∉ ds) ?_ ?_ n
  · intro d hd hmem
    exact digitChar_ne_newline hd (List.mem_singleton.mp hmem).symm
  · intro n d ds hd ih hmem
    rcases List.mem_append.mp hmem with hmem | hmem
    · exact ih hmem
    · exact digitChar_ne_newline hd (List.mem_singleton.mp hmem).symm

theorem ofHex_hex (width n : Nat) : ofHex (hex width n) = n := by
  have hzeros : ∀ j, (List.replicate j '0').foldl (fun n c => 16 * n + digitValue c) 0 = 0 := by
    intro j
    induction j with
    | zero => rfl
    | succ j ih => rw [List.replicate_succ, List.foldl_cons]; exact ih
  simp only [hex]
  rw [ofHex, List.foldl_append, hzeros, ← ofHex, ofHex_toDigits]

theorem length_hex {width n : Nat} (hwidth : 0 < width) (h : n < 16 ^ width) :
    (hex width n).length = width := by
  have hle := (Nat.length_toDigits_le_iff (b := 16) (by decide) hwidth).mpr h
  simp only [hex, List.length_append, List.length_replicate]
  omega

/-! ## Reading a character back -/

/-- The first character that is written in a text between quotes, and what follows it. -/
def readEscape : List Char → Option (Char × List Char)
  | '\\' :: 'n' :: rest => some ('\n', rest)
  | '\\' :: 'r' :: rest => some ('\r', rest)
  | '\\' :: 't' :: rest => some ('\t', rest)
  | '\\' :: 'x' :: rest => some (.ofNat (ofHex (rest.take 2)), rest.drop 2)
  | '\\' :: 'u' :: rest => some (.ofNat (ofHex (rest.take 4)), rest.drop 4)
  | '\\' :: 'U' :: rest => some (.ofNat (ofHex (rest.take 8)), rest.drop 8)
  | '\\' :: c :: rest => some (c, rest)
  | c :: rest => some (c, rest)
  | [] => none

/-- The quotes that texts are put between. -/
def IsQuote (c : Char) : Prop :=
  c = '\'' ∨ c = '"'

theorem quoteFor_isQuote (text : List Char) : IsQuote (quoteFor text) := by
  rw [quoteFor]
  split
  · exact .inr rfl
  · exact .inl rfl

section

variable {quote c : Char}

theorem readEscape_self {rest : List Char} (hc : c ≠ '\\') :
    readEscape (c :: rest) = some (c, rest) := by
  cases rest <;> simp [readEscape, hc]

theorem take_drop_hex (width : Nat) (hwidth : 0 < width) (h : c.toNat < 16 ^ width)
    (rest : List Char) :
    (Char.ofNat (ofHex ((hex width c.toNat ++ rest).take width)),
      (hex width c.toNat ++ rest).drop width) = (c, rest) := by
  have hlength := length_hex hwidth h
  rw [List.take_left' hlength, List.drop_left' hlength, ofHex_hex, Char.ofNat_toNat]

/-- A character is read back from the way it is written, whatever follows. -/
theorem readEscape_escape (hquote : IsQuote quote) (c : Char) (rest : List Char) :
    readEscape (escape quote c ++ rest) = some (c, rest) := by
  rw [escape]
  split
  · next hc =>
      rcases hc with rfl | rfl
      · rcases hquote with rfl | rfl <;> rfl
      · rfl
  split
  · next hc => rw [hc]; rfl
  split
  · next hc => rw [hc]; rfl
  split
  · next hc => rw [hc]; rfl
  split
  · next hself _ _ _ _ => exact readEscape_self fun hc => hself (.inr hc)
  dsimp only
  split
  · next hlt => exact congrArg some (take_drop_hex 2 (by decide) hlt rest)
  split
  · next hlt => exact congrArg some (take_drop_hex 4 (by decide) hlt rest)
  · have hlt : c.toNat < 16 ^ 8 := by
      have hvalid : c.toNat < 2 ^ 32 := c.val.toNat_lt
      omega
    exact congrArg some (take_drop_hex 8 (by decide) hlt rest)

/-- No character is written as nothing. -/
theorem escape_ne_nil (hquote : IsQuote quote) (c : Char) : escape quote c ≠ [] := by
  intro hnil
  have hread := readEscape_escape hquote c []
  rw [hnil] at hread
  cases hread

theorem flatMap_escape_injective (hquote : IsQuote quote) {cs cs' : List Char}
    (h : cs.flatMap (escape quote) = cs'.flatMap (escape quote)) : cs = cs' := by
  induction cs generalizing cs' with
  | nil =>
      cases cs' with
      | nil => rfl
      | cons c' cs' =>
          rw [List.flatMap_nil, List.flatMap_cons, eq_comm, List.append_eq_nil_iff] at h
          exact absurd h.1 (escape_ne_nil hquote c')
  | cons c cs ih =>
      cases cs' with
      | nil =>
          rw [List.flatMap_nil, List.flatMap_cons, List.append_eq_nil_iff] at h
          exact absurd h.1 (escape_ne_nil hquote c)
      | cons c' cs' =>
          rw [List.flatMap_cons, List.flatMap_cons] at h
          have hread := readEscape_escape hquote c (cs.flatMap (escape quote))
          rw [h, readEscape_escape hquote c'] at hread
          obtain ⟨rfl, hrest⟩ := Prod.mk.inj (Option.some.inj hread)
          exact congrArg (c' :: ·) (ih hrest.symm)

theorem newline_not_mem_hex (width n : Nat) : '\n' ∉ hex width n := by
  intro hmem
  rcases List.mem_append.mp hmem with hmem | hmem
  · exact absurd (List.eq_of_mem_replicate hmem) (by decide)
  · exact newline_not_mem_toDigits n hmem

theorem newline_not_mem_escape (hquote : IsQuote quote) (c : Char) : '\n' ∉ escape quote c := by
  have hnewline : '\n' ≠ quote := by rcases hquote with rfl | rfl <;> decide
  rw [escape]
  split
  · next hc =>
      rcases hc with rfl | rfl
      · simp [hnewline]
      · decide
  split
  · decide
  split
  · decide
  split
  · decide
  split
  · next hc _ _ _ => exact fun hmem => hc (List.mem_singleton.mp hmem).symm
  dsimp only
  split
  · exact fun hmem => newline_not_mem_hex 2 _ (by simpa using hmem)
  split
  · exact fun hmem => newline_not_mem_hex 4 _ (by simpa using hmem)
  · exact fun hmem => newline_not_mem_hex 8 _ (by simpa using hmem)

end

end Quoted

open Quoted

/-- A quoted text begins with its quote. -/
theorem quoted_toList (text : String) :
    ∃ quote, IsQuote quote ∧
      (quoted text).toList = quote :: text.toList.flatMap (escape quote) ++ [quote] :=
  ⟨_, quoteFor_isQuote _, by rw [quoted, String.toList_ofList]⟩

/-- Texts are the same if they look the same between quotes. -/
theorem quoted_injective {text text' : String} (h : quoted text = quoted text') : text = text' := by
  obtain ⟨quote, hquote, htext⟩ := quoted_toList text
  obtain ⟨quote', -, htext'⟩ := quoted_toList text'
  rw [h, htext', List.cons_append, List.cons_append, List.cons.injEq] at htext
  obtain ⟨rfl, htext⟩ := htext
  exact String.toList_inj.mp
    (flatMap_escape_injective hquote (List.append_cancel_right htext).symm)

/-- A quoted text stays on one line. -/
theorem newline_not_mem_quoted (text : String) : '\n' ∉ (quoted text).toList := by
  obtain ⟨quote, hquote, htext⟩ := quoted_toList text
  have hnewline : '\n' ≠ quote := by rcases hquote with rfl | rfl <;> decide
  rw [htext]
  intro hmem
  rcases List.mem_append.mp hmem with hmem | hmem
  · rcases List.mem_cons.mp hmem with hmem | hmem
    · exact hnewline hmem
    · obtain ⟨c, -, hc⟩ := List.mem_flatMap.mp hmem
      exact newline_not_mem_escape hquote c hc
  · exact hnewline (List.mem_singleton.mp hmem)

end Lox
