import Lox.Proofs.Resolution.Agreement
import Mathlib.Data.List.AList

/-!
# Resolving one program after another

Outside of all scopes nothing is declared, and after every statement a resolver stands
where it stood before. So what a new resolver finds in two programs one after the other
is what it finds in the first, followed by what another new resolver finds in the
second: `resolution_composes`.
-/

namespace Lox

open Pass

/-- Some tokens are read as the program. -/
def IsParsed (program : List (Stmt Unit)) : Prop :=
  ∃ im limit tokens name, (parseProgram im limit tokens name).program = program

theorem IsParsed.listed {program : List (Stmt Unit)} (h : IsParsed program) :
    Stmt.ListedAll program := by
  obtain ⟨im, limit, tokens, name, rfl⟩ := h
  exact parseProgram_listed im limit tokens name

section

variable {ι τ : Type}

/-- The program that the parser gives, which knows nothing of its nodes. -/
def Stmt.bareAll (ys : List (Stmt ι)) : List (Stmt Unit) :=
  Stmt.mapAll id bare 0 ys

theorem Stmt.bareAll_append (xs ys : List (Stmt ι)) :
    bareAll (xs ++ ys) = bareAll xs ++ bareAll ys := by
  induction xs with
  | nil => rfl
  | cons x xs ih => exact congrArg (x.map id bare 0 :: ·) ih

theorem Stmt.nodesAll_append (xs ys : List (Stmt ι)) :
    nodesAll (xs ++ ys) = nodesAll xs ++ nodesAll ys := by
  induction xs with
  | nil => rfl
  | cons x xs ih => rw [List.cons_append, nodesAll, nodesAll, ih, List.append_assoc]

namespace Resolver

/-- The nodes of the references that a resolver has told. -/
def nodes (r : Resolver ι τ) : List ι :=
  r.log.filterMap Sighting.node?

theorem length_nodes (r : Resolver ι τ) : r.nodes.length = r.references.length := by
  rw [nodes, references]
  induction r.log with
  | nil => rfl
  | cons x log ih =>
      cases x with
      | violation broken => exact ih
      | reference node found depth => exact congrArg Nat.succ ih

end Resolver

variable [DecidableEq ι]

/-- A new resolver that keeps the distance of each reference under its node. -/
def Resolver.fresh : Resolver ι (AList fun _ : ι => Nat) where
  onResolve node distance distances := distances.insert node distance
  distances := ∅

/-- A new resolver after a program. -/
def Resolver.after (ys : List (Stmt ι)) : Resolver ι (AList fun _ : ι => Nat) :=
  Stmt.walkAll ys fresh

/-- Nodes that are recorded once each are the keys of the distances. -/
theorem keys_foldl_record {found : List (Sighting ι)} {distances : AList (fun _ : ι => Nat)}
    (hfound : (found.filterMap Sighting.node?).Nodup)
    (hnew : ∀ node ∈ found.filterMap Sighting.node?, node ∉ distances.keys) :
    (found.foldl (Sighting.record Resolver.fresh.onResolve) distances).keys =
      (found.filterMap Sighting.node?).reverse ++ distances.keys := by
  induction found generalizing distances with
  | nil => rfl
  | cons x found ih =>
      cases x with
      | violation broken => exact ih hfound hnew
      | reference node reference depth =>
          have hnodup := List.nodup_cons.mp hfound
          have hkeys :
              (distances.insert node reference.distance).keys = node :: distances.keys := by
            rw [AList.keys_insert, List.erase_of_not_mem (hnew node List.mem_cons_self)]
          have hfresh : ∀ other ∈ found.filterMap Sighting.node?,
              other ∉ (distances.insert node reference.distance).keys := by
            intro other hother
            rw [hkeys, List.mem_cons, not_or]
            exact ⟨fun heq => hnodup.1 (heq ▸ hother), hnew other (List.mem_cons_of_mem _ hother)⟩
          refine (ih hnodup.2 hfresh).trans ?_
          rw [hkeys, List.filterMap_cons, Sighting.node?, List.reverse_cons, List.append_assoc,
            List.singleton_append]

/-- What a new resolver finds in a program is what resolution says of it. -/
theorem Resolver.after_finds {ys : List (Stmt ι)} (hys : Stmt.ListedAll (Stmt.bareAll ys)) :
    Finds (after ys).log (resolveProgram (Stmt.bareAll ys)).faults
        (Stmt.referencesAll (resolveProgram (Stmt.bareAll ys)).program) (Stmt.nodesAll ys)
        (Stmt.nodesAll (resolveProgram (Stmt.bareAll ys)).program) ∧
      (after ys).distances = (after ys).log.foldl (Sighting.record fresh.onResolve) ∅ := by
  obtain ⟨found, hfound, hrun⟩ := Stmt.walkAll_yields 0 ys hys {} []
  have hafter : after ys =
      ⟨_, _, found, _, found.foldl (Sighting.record fresh.onResolve) ∅⟩ := hrun [] _ ∅
  rw [hafter]
  exact ⟨hfound, rfl⟩

/-- The log of a resolver that goes on, outside of all scopes, is continued by that of a
new one. -/
theorem Resolver.log_after_append (xs : List (Stmt ι)) {ys : List (Stmt ι)}
    (hys : Stmt.ListedAll (Stmt.bareAll ys)) :
    (after (xs ++ ys)).log = (after xs).log ++ (after ys).log := by
  obtain ⟨found, _, hrun⟩ := Stmt.walkAll_yields 0 ys hys {} []
  have hbalanced := Stmt.walkAll_balanced (τ := AList fun _ : ι => Nat) xs
  have hscopes : (after xs).scopes = [] := List.eq_nil_of_length_eq_zero (hbalanced.depth fresh)
  have haround : (after xs).around = {} := hbalanced.around fresh
  have hplace :
      after xs = ⟨[], {}, (after xs).log, (after xs).onResolve, (after xs).distances⟩ := by
    rw [← hscopes, ← haround]
  have hnew : (after ys).log = found := congrArg Resolver.log (hrun [] fresh.onResolve ∅)
  have hboth : after (xs ++ ys) = Stmt.walkAll ys (after xs) := Stmt.walkAll_append xs ys fresh
  rw [hboth, hplace, hrun, hnew]

/-- What a new resolver tells of a program. -/
structure Resolver.Tells (ys : List (Stmt ι)) : Prop where
  violations : (after ys).faults = (resolveProgram (Stmt.bareAll ys)).faults
  references : (after ys).references =
    Stmt.referencesAll (resolveProgram (Stmt.bareAll ys)).program
  /-- No node is told twice. -/
  once : (after ys).nodes.Nodup
  /-- There are as many distances as references. -/
  size : (after ys).distances.keys.length = (after ys).references.length
  /-- A reference lies within the scopes that are open where it stands. -/
  within : ∀ node found depth, .reference node found depth ∈ (after ys).log →
    found.distance < depth

theorem Resolver.tells {ys : List (Stmt ι)} (hys : Stmt.ListedAll (Stmt.bareAll ys))
    (hnodes : (Stmt.nodesAll ys).Nodup) : Tells ys := by
  obtain ⟨hfinds, hdistances⟩ := after_finds hys
  have honce : (after ys).nodes.Nodup := hnodes.sublist hfinds.nodes
  have hkeys : (after ys).distances.keys = (after ys).nodes.reverse ++ [] := by
    rw [hdistances]
    exact keys_foldl_record honce fun _ _ h => nomatch h
  exact {
    violations := hfinds.violations
    references := hfinds.references
    once := honce
    size := by rw [hkeys, List.append_nil, List.length_reverse, length_nodes]
    within := fun _ _ _ h => hfinds.inside _ h }

end

/-- Resolution of programs that the parser gives, whose nodes are distinct. What a new
resolver tells of one program followed by another, references and faults in their order,
is what it tells of the first, followed by what a new resolver tells of the second; and
of each it tells what `resolveProgram` says. For every statement leaves the scopes and
the surroundings balanced. Each node is told at most once, so that there are as many
distances as references, and each reference lies within the scopes around it. -/
theorem resolution_composes {ι : Type} [DecidableEq ι] {xs ys : List (Stmt ι)}
    (hxs : IsParsed (Stmt.bareAll xs)) (hys : IsParsed (Stmt.bareAll ys))
    (hnodes : (Stmt.nodesAll (xs ++ ys)).Nodup) :
    (Resolver.after (xs ++ ys)).log = (Resolver.after xs).log ++ (Resolver.after ys).log ∧
      (Resolver.Tells xs ∧ Resolver.Tells ys ∧ Resolver.Tells (xs ++ ys)) ∧
      ∀ (τ : Type) (y : Stmt ι), Balanced (y.walk : Pass ι τ) := by
  have hall : Stmt.ListedAll (Stmt.bareAll (xs ++ ys)) := by
    rw [Stmt.bareAll_append]
    exact Stmt.listedAll_append hxs.listed hys.listed
  have happend := Stmt.nodesAll_append xs ys
  refine ⟨Resolver.log_after_append xs hys.listed, ⟨?_, ?_, Resolver.tells hall hnodes⟩,
    fun _ => Stmt.walk_balanced⟩
  · exact Resolver.tells hxs.listed (hnodes.sublist (happend ▸ List.sublist_append_left _ _))
  · exact Resolver.tells hys.listed (hnodes.sublist (happend ▸ List.sublist_append_right _ _))

/-- A token in the first line. -/
def firstLine (kind : TokenKind) (lexeme : String) : Token :=
  { kind := kind, lexeme := lexeme, line := 1 }

/-- The tokens of
`{ class A < A { init() { var a = a; return this; } } }`. -/
def nestedTokens : List Token :=
  [firstLine .leftBrace "\x7b", firstLine .classWord "class", firstLine .identifier "A",
    firstLine .less "<", firstLine .identifier "A", firstLine .leftBrace "\x7b",
    firstLine .identifier "init", firstLine .leftParen "(", firstLine .rightParen ")",
    firstLine .leftBrace "\x7b", firstLine .varWord "var", firstLine .identifier "a",
    firstLine .equal "=", firstLine .identifier "a", firstLine .semicolon ";",
    firstLine .returnWord "return", firstLine .thisWord "this", firstLine .semicolon ";",
    firstLine .rightBrace "\x7d", firstLine .rightBrace "\x7d", firstLine .rightBrace "\x7d",
    firstLine .eof ""]

/-- What they are read as, with three nodes. -/
def nestedProgram : List (Stmt Nat) :=
  [.block [.classDecl (firstLine .identifier "A") (some ⟨firstLine .identifier "A", 0⟩)
    [.mk (firstLine .identifier "init") []
      [.varDecl (firstLine .identifier "a") (some (.var (firstLine .identifier "a") 1)),
        .ret (firstLine .returnWord "return") (some (.thisRef (firstLine .thisWord "this") 2))]]]]

/-- The tokens of `return super.m;`. -/
def misplacedTokens : List Token :=
  [firstLine .returnWord "return", firstLine .superWord "super", firstLine .dot ".",
    firstLine .identifier "m", firstLine .semicolon ";", firstLine .eof ""]

def misplacedProgram : List (Stmt Nat) :=
  [.ret (firstLine .returnWord "return")
    (some (.superRef (firstLine .superWord "super") (firstLine .identifier "m") 3))]

/-- Three faults and three references in a class that inherits from itself, then two
faults outside of all functions and classes. -/
theorem resolution_composes_misplaced :
    (IsParsed (Stmt.bareAll nestedProgram) ∧ IsParsed (Stmt.bareAll misplacedProgram) ∧
      (Stmt.nodesAll (nestedProgram ++ misplacedProgram)).Nodup) ∧
    (Resolver.after (nestedProgram ++ misplacedProgram)).log =
        (Resolver.after nestedProgram).log ++ (Resolver.after misplacedProgram).log ∧
      (Resolver.Tells nestedProgram ∧ Resolver.Tells misplacedProgram ∧
        Resolver.Tells (nestedProgram ++ misplacedProgram)) ∧
      ∀ (τ : Type) (y : Stmt Nat), Balanced (y.walk : Pass Nat τ) := by
  have hnested : IsParsed (Stmt.bareAll nestedProgram) :=
    ⟨⟨⟨[], false⟩, {}⟩, .count 20, nestedTokens, none, rfl⟩
  have hmisplaced : IsParsed (Stmt.bareAll misplacedProgram) :=
    ⟨⟨⟨[], false⟩, {}⟩, .count 20, misplacedTokens, none, rfl⟩
  have hnodes : (Stmt.nodesAll (nestedProgram ++ misplacedProgram)).Nodup := by decide
  exact ⟨⟨hnested, hmisplaced, hnodes⟩, resolution_composes hnested hmisplaced hnodes⟩

end Lox
