import Lox.Yaml.Node

/-!
# Reading data

A settings file holds one document: a scalar, or lists and mappings in one of two
styles. In block style the columns carry the structure, in flow style brackets do.
Reading takes the nodes of the document for what they stand for.

A mapping may take over the entries of other mappings under a merge key. They come
before its own ones, so that those count where both have a key; of two mappings in a
list, the earlier one counts.
-/

namespace Lox
namespace Yaml

open Document

/-! ## Scalars -/

/-- The first part between colons that is no number for itself. -/
def oddPart (isNumber : List Char → Bool) (cs : List Char) : String :=
  String.ofList (((Scalar.splitColons cs).find? fun part => !isNumber part).getD cs)

/-- Why a text is no whole number. The first characters say to which base it should be
one. -/
def numeralFailure (text : String) : Failure :=
  match (Scalar.sign (text.toList.filter (· != '_'))).2 with
  | [] => .emptyNumeral
  | '0' :: 'b' :: rest => .notANumeral 2 (String.ofList rest)
  | '0' :: 'x' :: rest => .notANumeral 16 (String.ofList rest)
  | '0' :: rest => .notANumeral 8 (String.ofList ('0' :: rest))
  | cs => .notANumeral 10 (oddPart (Scalar.isNumeral 10) cs)

/-- The whole number that a text is. -/
def wholeNumber (text : String) : Except Failure Datum :=
  match Scalar.form? text with
  | some (.int negative base digits) => Scalar.value (.int negative base digits)
  | some (.sexagesimal negative false parts) => Scalar.value (.sexagesimal negative false parts)
  | _ => .error (numeralFailure text)

/-- The real number that a text without a sign is; it may be written as a whole number,
and its exponent needs no sign. -/
def unsignedReal? (cs : List Char) : Option Float :=
  let (mantissa, exponent) := cs.span fun c => c.isDigit || c == '.'
  let point := if mantissa.contains '.' then [] else ['.']
  let exponent :=
    match exponent with
    | e :: c :: rest => if c.isDigit then e :: '+' :: c :: rest else exponent
    | _ => exponent
  match Scalar.real? false false (mantissa ++ point ++ exponent) with
  | some (.real _ mantissa exponent) => some (Scalar.decimal mantissa exponent)
  | _ => none

/-- The real number that a text is, perhaps to base 60. -/
def realNumber (text : String) : Except Failure Datum :=
  match (Scalar.form? text).filter fun form => Kind.ofForm (some form) == .real with
  | some form => Scalar.value form
  | none =>
    let cs := (text.toList.filter (· != '_')).map Char.toLower
    let (negative, cs) := Scalar.sign cs
    match (Scalar.splitColons cs).mapM unsignedReal? with
    | some parts => .ok (.real (Scalar.sumSixtieths negative parts))
    | none =>
      if text.all (· == '_') then .error .emptyNumeral
      else .error (.notAReal (oddPart (fun part => (unsignedReal? part).isSome) cs))

/-- The truth value that a word is, in letters of any case. -/
def truthValue (text : String) : Except Failure Datum :=
  let word := String.ofList (text.toList.map Char.toLower)
  if Scalar.trueWords.contains word then .ok (.bool true)
  else if Scalar.falseWords.contains word then .ok (.bool false)
  else .error (.notATruthValue text)

/-- What a scalar of a kind stands for. -/
def scalarDatum (kind : Kind) (text : String) : Except Failure Datum :=
  match kind with
  | .null => .ok .null
  | .bool => truthValue text
  | .int => wholeNumber text
  | .real => realNumber text
  | .text => .ok (.text text)
  | .moment =>
    match Moment.ofText? text with
    | some m => Scalar.value (.moment m)
    | none => .error (.notAMoment text)
  | _ => .error .malformed

/-! ## Nodes -/

/-- Puts entries together. -/
def gather (entries : List (Datum × Datum)) : Datum :=
  .mapping (entries.foldl (fun d (key, value) => Datum.putEntry d key value) [])

/-- Is this a merge key? -/
def Node.isMerge : Node → Bool
  | .scalar kind _ => kind == .merge
  | .list kind _ => kind == .merge
  | .mapping kind _ => kind == .merge

mutual

/-- What a node stands for. -/
def Node.datum : Node → Except Failure Datum
  | .scalar kind text => scalarDatum kind text
  | .list kind items =>
    if kind = .list then (datumOfEach items).map .list else .error .malformed
  | .mapping kind entries =>
    if kind = .mapping then
      (entryData entries).map fun (merged, own) => gather (merged ++ own)
    else .error .malformed

def datumOfEach : List Node → Except Failure (List Datum)
  | [] => .ok []
  | node :: rest => do
    let d ← node.datum
    let ds ← datumOfEach rest
    .ok (d :: ds)

/-- The entries that a mapping takes over, and its own ones. The sign for a default
value is a text when it is a key. -/
def entryData : List (Node × Node) →
    Except Failure (List (Datum × Datum) × List (Datum × Datum))
  | [] => .ok ([], [])
  | (key, value) :: rest => do
    if key.isMerge then
      let taken ← mergedEntries value
      let (merged, own) ← entryData rest
      .ok (taken ++ merged, own)
    else
      let k ←
        match key with
        | .scalar .default text => .ok (.text text)
        | key => key.datum
      if k.isKey then
        let v ← value.datum
        let (merged, own) ← entryData rest
        .ok (merged, (k, v) :: own)
      else .error .malformed

/-- The entries that are taken over from a mapping, or from a list of mappings. -/
def mergedEntries : Node → Except Failure (List (Datum × Datum))
  | .mapping _ entries => (entryData entries).map fun (merged, own) => merged ++ own
  | .list _ items => mergedFromEach items
  | .scalar _ _ => .error .malformed

def mergedFromEach : List Node → Except Failure (List (Datum × Datum))
  | [] => .ok []
  | .mapping _ entries :: rest => do
    let (merged, own) ← entryData entries
    let later ← mergedFromEach rest
    .ok (later ++ merged ++ own)
  | _ :: _ => .error .malformed

end

/-- Reads the only document of a text. -/
def read (text : String) : Except Failure Datum := do
  let tokens ← tokens text.toList
  let node ← orMalformed (document tokens)
  node.datum

end Yaml
end Lox
