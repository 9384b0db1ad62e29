import Lox.Proofs.Powers.Forms
import Lox.Proofs.Numerals.Integers

/-!
# Powers by multiplication

The function of the prelude multiplies one by its first argument and counts its second argument
down, until that is zero. One round of its loop turns the variables of the call into those of the
next round, and changes nothing that was there before the call. So do all rounds, by induction on
the number of those that are left. For a negative exponent the function calls itself once, with
the opposite one.
-/

namespace Lox

open Eval Lox.Expr Lox.Stmt

/-- One, multiplied by a number so often, from the left. -/
def power (b : Float) (n : Nat) : Float :=
  (List.replicate n b).foldl (· * ·) 1

/-- A power with an integer as exponent: for a negative one it is divided into one. -/
def integerPower (b : Float) (i : Int) : Float :=
  if i < 0 then 1 / power b i.natAbs else power b i.natAbs

/-! ## The program -/

/-- The body of the loop: multiply once more, count down. -/
def powerRound : Stmt.Form :=
  isBlock
    [isExpression (isAssign "result" (some 1)
      (isBinary .star (isVar "result" (some 1)) (isVar "base" (some 1)))),
     isExpression (isAssign "exponent" (some 1)
      (isBinary .minus (isVar "exponent" (some 1)) (isNumber 1)))]

/-- The function calls itself with the opposite exponent. -/
def oppositePower : Expr.Form :=
  isCall (isVar "pow" none)
    [isVar "base" (some 0), isUnary .minus (isVar "exponent" (some 0))]

/-- The body of the function. -/
def powerBody : List Stmt.Form :=
  [isIf (isBinary .less (isVar "exponent" (some 0)) (isNumber 0))
    (isReturn (isBinary .slash (isNumber 1) oppositePower)),
   isVarDecl "result" (isNumber 1),
   isWhile (isBinary .greater (isVar "exponent" (some 0)) (isNumber 0)) powerRound,
   isReturn (isVar "result" (some 0))]

/-- A function of two arguments with this body. -/
structure Closure.IsPower (c : Closure) : Prop where
  params : c.declaration.params.map (·.lexeme) = ["base", "exponent"]
  body : fits powerBody c.declaration.body = true
  plain : c.isInitializer = false

theorem Closure.IsPower.arity? {c : Closure} (h : c.IsPower) {id : Nat} :
    (Value.function id c).arity? = some 2 := by
  have hlength := congrArg List.length h.params
  rw [List.length_map] at hlength
  exact congrArg some hlength

theorem size_pos_of_global? {m : Machine} {name : String} {v : Value}
    (h : m.global? name = some v) : 0 < m.frames.size := by
  rw [Machine.global?, Frames.get?_globalEnv] at h
  exact Frames.lt_size_of_binding? (Option.isSome_of_eq_some h)

/-! ## What is left alone -/

/-- Only frames from the `k`th on differ, and the last value. -/
structure Confined (k : Nat) (m m' : Machine) : Prop where
  below : ∀ j < k, m'.frames[j]? = m.frames[j]?
  size : m.frames.size ≤ m'.frames.size
  objects : m'.objects = m.objects
  nextId : m'.nextId = m.nextId
  output : m'.output = m.output
  vectorClass : m'.vectorClass = m.vectorClass
  readings : m'.readings = m.readings

namespace Confined

variable {k : Nat} {m m' m₁ : Machine}

theorem refl (k : Nat) (m : Machine) : Confined k m m :=
  ⟨fun _ _ => rfl, Nat.le_refl _, rfl, rfl, rfl, rfl, rfl⟩

theorem trans (h : Confined k m m₁) (h' : Confined k m₁ m') : Confined k m m' where
  below j hj := (h'.below j hj).trans (h.below j hj)
  size := Nat.le_trans h.size h'.size
  objects := h'.objects.trans h.objects
  nextId := h'.nextId.trans h.nextId
  output := h'.output.trans h.output
  vectorClass := h'.vectorClass.trans h.vectorClass
  readings := h'.readings.trans h.readings

theorem mono {l : Nat} (h : Confined k m m') (hle : l ≤ k) : Confined l m m' :=
  { h with below := fun j hj => h.below j (Nat.lt_of_lt_of_le hj hle) }

theorem binding? (h : Confined k m m') {j : Nat} (hj : j < k) (name : String) :
    m'.frames.binding? j name = m.frames.binding? j name := by
  rw [Frames.binding?, Frames.binding?, h.below j hj]

theorem global? (h : Confined k m m') (hk : 0 < k) (name : String) :
    m'.global? name = m.global? name := by
  rw [Machine.global?, Machine.global?, Frames.get?_globalEnv, Frames.get?_globalEnv,
    h.binding? hk]

/-- Another environment and another last value are no matter. -/
theorem setEnv (h : Confined k m m') (E : Env) (v : Value) :
    Confined k m { m' with env := E, lastValue := v } :=
  { h with }

theorem bind (h : Confined k m m') {id : Nat} (hid : k ≤ id) (name : String) (v : Value) :
    Confined k m { m' with frames := m'.frames.bind id name v } :=
  { h with
    below := fun j hj => by
      rw [← h.below j hj]
      exact (Array.getElem?_modify ..).trans (if_neg (by omega))
    size := by simpa using h.size }

theorem enter (h : Confined k m m') (hk : k ≤ m.frames.size) (label : String) (E : Env) :
    Confined k m { m' with frames := (m'.frames.enter label E).2 } :=
  { h with
    below := fun j hj => by
      have hsize := h.size
      rw [← h.below j hj]
      exact (Array.getElem?_push ..).trans (if_neg (by omega))
    size := by rw [Frames.size_enter]; exact Nat.le_succ_of_le h.size }

end Confined

/-! ## One round -/

/-- The variables of a call, in its frame. -/
structure Counts (k : FrameId) (b x r : Float) (m : Machine) : Prop where
  lt : k < m.frames.size
  base : m.frames.binding? k "base" = some (.number b)
  exponent : m.frames.binding? k "exponent" = some (.number x)
  result : m.frames.binding? k "result" = some (.number r)

theorem Frames.seek_local {F : Frames Value} {E : Env} {d id : Nat} {name : String} {v : Value}
    (hid : E[d]? = some id) (hv : F.binding? id name = some v) :
    F.seek E name (some d) = .ok v := by
  rw [seek, getAt_eq_ok hid hv]
  rfl

theorem evaluates_local {m : Machine} {d id n : Nat} {name : String} {x : Float}
    (hid : m.env[d]? = some id) (hx : m.frames.binding? id name = some (.number x)) :
    Evaluates (isVar name (some d)) (n + 1) m (.number x) m :=
  evaluates_var (Frames.seek_local hid hx) nofun

/-- The machine after an assignment to a variable of the call, as a statement. -/
def Machine.assigned (m : Machine) (k : FrameId) (name : String) (v : Value) : Machine :=
  { m with frames := m.frames.bind k name v, lastValue := v }

section

variable {k : FrameId} {E : Env} {b x r y : Float} {m : Machine}

theorem Confined.assigned {m' : Machine} (h : Confined k m m') (name : String) (v : Value) :
    Confined k m (m'.assigned k name v) :=
  (h.bind (Nat.le_refl k) name v).setEnv _ _

theorem completes_assignment (name : String) {d n : Nat} {v : Value} {p : Expr.Form}
    (h : Evaluates p n m v m) (hid : m.env[d]? = some k) :
    Completes (isExpression (isAssign name (some d) p)) (n + 2) m .normal (m.assigned k name v) :=
  completes_expression (evaluates_assign h hid)

theorem Counts.inside (h : Counts k b x r m) (label : String) (E : Env) :
    Counts k b x r (m.inside label E) := by
  constructor <;> simp [Machine.inside, Nat.lt_succ_of_lt h.lt, h.base, h.exponent, h.result]

theorem Counts.result_assigned (h : Counts k b x r m) :
    Counts k b x y (m.assigned k "result" (.number y)) := by
  constructor <;> simp [Machine.assigned, Frames.binding?_bind _ h.lt, h.lt, h.base, h.exponent]

theorem Counts.exponent_assigned (h : Counts k b x r m) :
    Counts k b y r (m.assigned k "exponent" (.number y)) := by
  constructor <;> simp [Machine.assigned, Frames.binding?_bind _ h.lt, h.lt, h.base, h.result]

/-- One round multiplies the result once more, and takes one from the exponent. -/
theorem completes_powerRound (henv : m.env = k :: E) (h : Counts k b x r m) :
    ∃ m', Completes powerRound 7 m .normal m' ∧ m'.env = m.env ∧ Confined k m m' ∧
      Counts k b (x - 1) (r * b) m' := by
  -- the block has a frame of its own, that of the call is the next one
  have hinner := h.inside "block" m.env
  have hcall : (m.inside "block" m.env).env[1]? = some k := by simp [Machine.inside, henv]
  have hconfined : Confined k m (m.inside "block" m.env) :=
    ((Confined.refl k m).enter (Nat.le_of_lt h.lt) "block" m.env).setEnv _ _
  generalize hm₁ : m.inside "block" m.env = m₁ at hinner hcall hconfined
  have hproduct : Evaluates (isBinary .star (isVar "result" (some 1)) (isVar "base" (some 1))) 3 m₁
      (.number (r * b)) m₁ :=
    evaluates_binary (evaluates_local hcall hinner.result) (evaluates_local hcall hinner.base)
      nofun nofun
  have hmultiplied := hinner.result_assigned (y := r * b)
  have hmultiply := completes_assignment "result" hproduct hcall
  have hless : Evaluates (isBinary .minus (isVar "exponent" (some 1)) (isNumber 1)) 2
      (m₁.assigned k "result" (.number (r * b))) (.number (x - 1)) _ :=
    evaluates_binary (evaluates_local hcall hmultiplied.exponent) (evaluates_number 1) nofun nofun
  have hcount := completes_assignment "exponent" hless hcall
  have hcounted := hmultiplied.exponent_assigned (y := x - 1)
  have hbody := completesAll_cons hmultiply (completesAll_cons hcount completesAll_nil)
  subst hm₁
  have hblock := completes_block hbody
  refine ⟨_, hblock, rfl, ?_, ⟨hcounted.1, hcounted.2, hcounted.3, hcounted.4⟩⟩
  exact ((hconfined.assigned "result" _).assigned "exponent" _).setEnv _ _

/-- The loop goes on as long as the exponent is positive. -/
theorem evaluates_powerCondition (henv : m.env = k :: E) (h : Counts k b x r m) (n : Nat) :
    Evaluates (isBinary .greater (isVar "exponent" (some 0)) (isNumber 0)) (n + 2) m
      (.bool (0 < x)) m :=
  evaluates_binary (evaluates_local (by rw [henv]; rfl) h.exponent) (evaluates_number 0) nofun nofun

/-- All rounds together multiply the result as often as the exponent says. The induction is on
the rounds that are left; what they keep is that the variables are those of the next round. -/
theorem loops_powerRound {n : Nat} (henv : m.env = k :: E) (h : Counts k b x r m)
    (hx : IsInteger x n) (hsmall : n ≤ 2 ^ 53) :
    ∃ m', Loops (isBinary .greater (isVar "exponent" (some 0)) (isNumber 0)) powerRound (n + 8) m
        .normal m' ∧
      m'.env = m.env ∧ Confined k m m' ∧
      m'.frames.binding? k "result" = some (.number ((List.replicate n b).foldl (· * ·) r)) := by
  have hpositive := hx.zero_lt_iff (by omega)
  induction n generalizing m x r with
  | zero =>
      refine ⟨m, loops_done (evaluates_powerCondition henv h 5) ?_, rfl, .refl k m, h.result⟩
      simp [Value.truthy, hpositive]
  | succ n ih =>
      obtain ⟨m₁, hround, henv₁, hconfined₁, h₁⟩ := completes_powerRound henv h
      have hx₁ : IsInteger (x - 1) n := by simpa using hx.sub_one (by omega) (by omega)
      obtain ⟨m₂, hloop, henv₂, hconfined₂, hresult⟩ :=
        ih (henv₁.trans henv) h₁ hx₁ (by omega) (hx₁.zero_lt_iff (by omega))
      refine ⟨m₂, loops_round (evaluates_powerCondition henv h _) ?_ (hround.mono (by omega)) hloop,
        henv₂.trans henv₁, hconfined₁.trans hconfined₂, hresult⟩
      simp [Value.truthy, hpositive]

/-! ## The call -/

/-- The frame of a call, before the body has run. -/
structure Called (k : FrameId) (b x : Float) (m : Machine) : Prop where
  lt : k < m.frames.size
  base : m.frames.binding? k "base" = some (.number b)
  exponent : m.frames.binding? k "exponent" = some (.number x)

section

variable {f : Closure}

theorem Closure.IsPower.calling_eq (hf : f.IsPower) (b x : Float) (m : Machine) :
    m.calling f [.number b, .number x] = { m with
      env := m.frames.size :: f.env
      frames := ((m.frames.enter ("call " ++ f.name) f.env).2.bind m.frames.size "base"
        (.number b)).bind m.frames.size "exponent" (.number x) } := by
  rw [Machine.calling, hf.params]
  rfl

theorem Closure.IsPower.called (hf : f.IsPower) (b x : Float) (m : Machine) :
    Called m.frames.size b x (m.calling f [.number b, .number x]) := by
  constructor <;> simp [hf.calling_eq, Frames.binding?_bind]

theorem Closure.IsPower.confined (hf : f.IsPower) (b x : Float) (m : Machine) :
    Confined m.frames.size m (m.calling f [.number b, .number x]) := by
  have hle := Nat.le_refl m.frames.size
  rw [hf.calling_eq]
  exact ((((Confined.refl _ m).enter hle _ f.env).bind hle "base" (.number b)).bind hle
    "exponent" (.number x)).setEnv _ _

theorem Called.declared (h : Called k b x m) (henv : m.env = k :: E) :
    Counts k b x 1 { m with frames := m.frames.define m.env "result" (.number 1) } := by
  constructor <;>
    simp [henv, Frames.define, Frames.binding?_bind _ h.lt, h.lt, h.base, h.exponent]

/-- The function looks at the sign of the exponent first. -/
theorem evaluates_isNegative (h : Called k b x m) (henv : m.env = k :: E) (n : Nat) :
    Evaluates (isBinary .less (isVar "exponent" (some 0)) (isNumber 0)) (n + 2) m
      (.bool (x < 0)) m :=
  evaluates_binary (evaluates_local (by rw [henv]; rfl) h.exponent) (evaluates_number 0) nofun nofun

/-- For a natural exponent the loop does it. -/
theorem call_power_natural {n : Nat} (hf : f.IsPower) (hx : IsInteger x n)
    (hsmall : n ≤ 2 ^ 53) (id : Nat) (m : Machine) :
    ∃ m', (∀ l, n + 12 < l → Eval.call l (.function id f) [.number b, .number x] m =
        .ok (.number (power b n)) m') ∧
      m'.env = m.env ∧ Confined m.frames.size m m' := by
  have hcalled := hf.called b x m
  have hconfined := hf.confined b x m
  have henv : (m.calling f [.number b, .number x]).env = m.frames.size :: f.env := rfl
  generalize hm₁ : m.calling f [.number b, .number x] = m₁ at hcalled hconfined henv
  have hnegative : (Value.bool (x < 0)).truthy = false := by
    simp [Value.truthy, hx.lt_zero_iff (by omega)]
  have hdeclared := hcalled.declared henv
  have hbound : Confined m.frames.size m
      { m₁ with frames := m₁.frames.define m₁.env "result" (.number 1) } := by
    simpa only [Frames.define, henv] using
      hconfined.bind (Nat.le_refl _) "result" (.number 1)
  generalize hm₂ : { m₁ with frames := m₁.frames.define m₁.env "result" (.number 1) } = m₂
    at hdeclared hbound
  have henv₂ : m₂.env = m.frames.size :: f.env := hm₂ ▸ henv
  obtain ⟨m₃, hloop, henv₃, hrounds, hresult⟩ := loops_powerRound henv₂ hdeclared hx hsmall
  have hbody : CompletesAll powerBody (n + 12) m₁ (.returned (.number (power b n))) m₃ := by
    refine completesAll_cons (completes_else (evaluates_isNegative hcalled henv _) hnegative) ?_
    refine completesAll_cons (completes_varDecl (evaluates_number 1)) ?_
    refine hm₂ ▸ completesAll_cons (completes_while hloop) ?_
    have hid : m₃.env[0]? = some m.frames.size := by rw [henv₃, henv₂]; rfl
    exact completesAll_returned (completes_return (evaluates_local hid hresult))
  subst hm₁
  exact ⟨_, call_function hf.plain hf.body hbody, rfl, (hbound.trans hrounds).setEnv _ _⟩

/-- For a negative exponent the function calls itself, and finds itself among the globals. -/
theorem evaluates_oppositePower {n id : Nat} (hf : f.IsPower) (hcalled : Called k b x m)
    (henv : m.env = k :: E) (hpow : m.global? "pow" = some (.function id f))
    (hx : IsInteger (-x) n) (hsmall : n ≤ 2 ^ 53) :
    ∃ m', Evaluates oppositePower (n + 14) m (.number (power b n)) m' ∧
      Confined m.frames.size m m' := by
  obtain ⟨m', hcall, -, hconfined⟩ := call_power_natural (b := b) hf hx hsmall id m
  refine ⟨m', ?_, hconfined⟩
  have hid : m.env[0]? = some k := by rw [henv]; rfl
  have hfound : m.frames.seek m.env "pow" none = .ok (.function id f) := by
    rw [Machine.global?] at hpow
    rw [Frames.seek, hpow]
  have hbase := evaluates_local (n := n + 11) hid hcalled.base
  have hopposite := evaluates_neg (evaluates_local (n := n + 9) hid hcalled.exponent)
  exact evaluates_call (evaluates_var hfound fun h => by cases h) (evaluatesAll_cons hbase
    (evaluatesAll_cons hopposite evaluatesAll_nil)) hf.arity? fun l hl => hcall l hl

/-- What a function of this kind computes. For a negative exponent it has to be what its name
means. -/
theorem Closure.IsPower.call {i : Int} {id : Nat} (hf : f.IsPower)
    (hpow : i < 0 → m.global? "pow" = some (.function id f)) (hx : IsInteger x i)
    (hsmall : i.natAbs ≤ 2 ^ 53) :
    ∃ m', (∀ l, i.natAbs + 18 < l → Eval.call l (.function id f) [.number b, .number x] m =
        .ok (.number (integerPower b i)) m') ∧
      m'.env = m.env ∧ Confined m.frames.size m m' := by
  by_cases hi : i < 0
  · have hcalled := hf.called b x m
    have hconfined := hf.confined b x m
    have henv : (m.calling f [.number b, .number x]).env = m.frames.size :: f.env := rfl
    have hpow₁ : (m.calling f [.number b, .number x]).global? "pow" = some (.function id f) :=
      (hconfined.global? (size_pos_of_global? (hpow hi)) "pow").trans (hpow hi)
    generalize hm₁ : m.calling f [.number b, .number x] = m₁ at hcalled hconfined henv hpow₁
    have hopposite : IsInteger (-x) i.natAbs := by
      rw [Int.ofNat_natAbs_of_nonpos (Int.le_of_lt hi)]
      exact hx.neg hsmall
    obtain ⟨m₂, hevaluates, hconfined₂⟩ :=
      evaluates_oppositePower hf hcalled henv hpow₁ hopposite hsmall
    have hnegative : (Value.bool (x < 0)).truthy = true := by
      simp [Value.truthy, hx.lt_zero_iff hsmall, hi]
    have hbody : CompletesAll powerBody (i.natAbs + 18) m₁
        (.returned (.number (1 / power b i.natAbs))) m₂ := by
      refine completesAll_returned ?_
      refine completes_then (evaluates_isNegative hcalled henv _) hnegative ?_
      exact completes_return
        (evaluates_binary (evaluates_number 1) hevaluates (by decide) (by decide))
    subst hm₁
    rw [integerPower, if_pos hi]
    exact ⟨_, call_function hf.plain hf.body hbody, rfl,
      (hconfined.trans (hconfined₂.mono hconfined.size)).setEnv _ _⟩
  · have hnatural : IsInteger x i.natAbs := by
      rwa [Int.natAbs_of_nonneg (Int.not_lt.mp hi)]
    obtain ⟨m', hcall, henv, hconfined⟩ := call_power_natural (b := b) hf hnatural hsmall id m
    rw [integerPower, if_neg hi]
    exact ⟨m', fun l hl => hcall l (by omega), henv, hconfined⟩

end

end

end Lox
