import DeferredQuery.Proofs.Sql.Keyed
import DeferredQuery.Proofs.Sql.Steps
import Mathlib.Data.List.MinMax

/-!
# Windows on rows

The operators that skip and take rows move a window over them, one after the other. A statement has
one offset and one limit: the sum of what is skipped and the least number of what is taken. An
operator treats a negative count as zero; in the sum it cancels what other operators skip.
-/

namespace DeferredQuery.Sql

open Eval (Env)
open MemoryStore (Stage runStages)

/-! ## Sums and least numbers -/

/-- The number that a term stands for, where sums have no bounds. All other terms, apart from least
numbers, have the given numbers. -/
def Term.exact (number : Term → Option Int64) : Term → Option ℤ
  | .binary .add left right => do
    let m ← left.exact number
    let n ← right.exact number
    return m + n
  | .function "LEAST" [a, b] _ => do
    let m ← a.exact number
    let n ← b.exact number
    return min m n
  | t => (number t).map Int64.toInt

/-- The rows of a window that begins behind an offset and ends at a limit, if there is one. Negative
numbers stand for zero. -/
def clip {α : Type} (offset : ℤ) (limit : WithTop ℤ) (xs : List α) : List α :=
  match limit with
  | none => xs.drop offset.toNat
  | some n => (xs.drop offset.toNat).take n.toNat

theorem clip_top {α : Type} (offset : ℤ) (xs : List α) :
    clip offset ⊤ xs = xs.drop offset.toNat := rfl

theorem clip_coe {α : Type} (offset n : ℤ) (xs : List α) :
    clip offset n xs = (xs.drop offset.toNat).take n.toNat := rfl

namespace Select

variable (number : Term → Option Int64)

def exactOffset (s : Select) : Option ℤ :=
  match s.offset with
  | none => some 0
  | some t => t.exact number

def exactLimit (s : Select) : Option (WithTop ℤ) :=
  match s.limit with
  | none => some ⊤
  | some t => (t.exact number).map WithTop.some

def window {α : Type} (s : Select) (xs : List α) : Option (List α) := do
  let offset ← s.exactOffset number
  let limit ← s.exactLimit number
  return clip offset limit xs

end Select

/-! ## Cuts -/

inductive Cut where
  | skip (count : ℤ)
  | take (count : ℤ)

namespace Cut

def keep {α : Type} (xs : List α) : Cut → List α
  | skip n => xs.drop n.toNat
  | take n => xs.take n.toNat

theorem foldl_skip {α : Type} (skips : List ℤ) (xs : List α) :
    (skips.map skip).foldl keep xs = xs.drop (skips.map Int.toNat).sum := by
  induction skips generalizing xs with
  | nil => rfl
  | cons n skips ih =>
      rw [List.map_cons, List.foldl_cons, ih, keep, List.drop_drop, List.map_cons, List.sum_cons]

theorem foldl_take {α : Type} (takes : List ℤ) (xs : List α) :
    (takes.map take).foldl keep xs = clip 0 takes.minimum xs := by
  induction takes using List.reverseRecOn with
  | nil => rfl
  | append_singleton takes n ih =>
      rw [List.map_append, List.foldl_append, ih, List.minimum_concat]
      change ((clip 0 takes.minimum xs).take n.toNat) = _
      cases takes.minimum with
      | top => rfl
      | coe m =>
          have hmin : (min m n).toNat = min n.toNat m.toNat := by omega
          rw [← WithTop.coe_min, clip_coe, clip_coe, List.take_take, hmin]

/-- Rows that are first skipped and then taken are a window on all rows. -/
theorem foldl_keep {α : Type} (skips takes : List ℤ) (xs : List α) :
    (skips.map skip ++ takes.map take).foldl keep xs =
      clip ((skips.map Int.toNat).sum : ℕ) takes.minimum xs := by
  rw [List.foldl_append, foldl_skip, foldl_take]
  cases takes.minimum with
  | top => rfl
  | coe m => rw [clip_coe, clip_coe, Int.toNat_natCast, Int.toNat_zero, List.drop_zero]

end Cut

/-! ## Offsets that differ -/

theorem sum_eq_sub (l : List ℤ) : l.sum =
    ((l.map Int.toNat).sum : ℕ) - ((l.map fun n => (-n).toNat).sum : ℕ) := by
  induction l with
  | nil => rfl
  | cons n l ih =>
      simp only [List.sum_cons, List.map_cons, ih]
      omega

/-- What all counts skip is what their sum skips, unless they have both signs. -/
theorem toNat_sum_eq_iff (l : List ℤ) : l.sum.toNat = (l.map Int.toNat).sum ↔
    ¬ ∃ m n, m ∈ l ∧ n ∈ l ∧ m < 0 ∧ 0 < n := by
  have hsub := sum_eq_sub l
  have hpart (f : ℤ → ℕ) : (l.map f).sum = 0 ↔ ∀ n ∈ l, f n = 0 := by
    rw [List.sum_eq_zero_iff_forall_eq_nat, List.forall_mem_map]
  have hzero : l.sum.toNat = (l.map Int.toNat).sum ↔
      (l.map Int.toNat).sum = 0 ∨ (l.map fun n => (-n).toNat).sum = 0 := by omega
  rw [hzero, hpart, hpart]
  constructor
  · rintro (hall | hall) ⟨m, n, hm, hn, hm₀, hn₀⟩
    · have := hall n hn
      omega
    · have := hall m hm
      omega
  · intro hnot
    by_contra! hboth
    obtain ⟨⟨n, hn, hn₀⟩, m, hm, hm₀⟩ := hboth
    exact hnot ⟨m, n, hm, hn, by omega, by omega⟩

/-- A later offset gives another window on some rows, unless the limit lets no rows through. -/
theorem clip_eq_iff {m n : ℤ} (h : m.toNat ≤ n.toNat) (limit : WithTop ℤ) :
    (∀ xs : List Value, clip m limit xs = clip n limit xs) ↔
      limit ≤ 0 ∨ m.toNat = n.toNat := by
  constructor
  · intro hall
    -- on as many rows as the later offset leaves out, only the earlier one leaves any
    have hlength := congrArg List.length (hall (List.replicate n.toNat .null))
    cases limit with
    | top =>
        simp only [clip_top, List.length_drop, List.length_replicate] at hlength
        exact .inr (by omega)
    | coe k =>
        simp only [clip_coe, List.length_take, List.length_drop, List.length_replicate] at hlength
        by_cases hk : k ≤ 0
        · exact .inl (WithTop.coe_le_coe.mpr hk)
        · exact .inr (by omega)
  · rintro (hlimit | hoffset) xs
    · cases limit with
      | top => simp at hlimit
      | coe k =>
          have hk : k.toNat = 0 := Int.toNat_of_nonpos (WithTop.coe_le_coe.mp hlimit)
          rw [clip_coe, clip_coe, hk, List.take_zero, List.take_zero]
    · cases limit with
      | top => rw [clip_top, clip_top, hoffset]
      | coe k => rw [clip_coe, clip_coe, hoffset]

/-! ## Clauses of skips and takes -/

/-- The value of a count is a number, and its term is read as this number. -/
structure CountsAs (ctx : Context) (env : Env) (number : Term → Option Int64) (e : Expr)
    (n : Int64) : Prop where
  value : Eval.value env [] e = pure (.int n)
  term : ∀ t, lowerTerm ctx [] e = .ok t → t.exact number = some n.toInt

inductive CutsAs (ctx : Context) (env : Env) (number : Term → Option Int64) :
    Operation → Cut → Prop
  | skip {e : Expr} {n : Int64} (h : CountsAs ctx env number e n) :
    CutsAs ctx env number (.skip e) (.skip n.toInt)
  | take {e : Expr} {n : Int64} (h : CountsAs ctx env number e n) :
    CutsAs ctx env number (.take e) (.take n.toInt)

variable {ctx : Context} {env : Env} {number : Term → Option Int64} {s s' : Select}

namespace Select

/-- The offset and the limit stand for all that has been skipped and taken. -/
structure Stands (number : Term → Option Int64) (skips takes : List ℤ) (s : Select) : Prop where
  offset : s.exactOffset number = some skips.sum
  limit : s.exactLimit number = some takes.minimum

variable {skips takes : List ℤ} {t : Term} {n : ℤ}

/-- What is skipped adds to the offset. -/
theorem Stands.skip (h : s.Stands number skips takes) (ht : t.exact number = some n) :
    (s.skip t).Stands number (skips ++ [n]) takes := by
  refine ⟨?_, h.limit⟩
  have hoffset := h.offset
  rw [List.sum_append, List.sum_singleton]
  cases hearlier : s.offset with
  | none =>
      have hsum : 0 = skips.sum := by simpa [exactOffset, hearlier] using hoffset
      rw [← hsum, zero_add, ← ht]
      simp [exactOffset, Select.skip, hearlier]
  | some u =>
      have hu : u.exact number = some skips.sum := by simpa [exactOffset, hearlier] using hoffset
      simp [exactOffset, Select.skip, hearlier, Term.exact, hu, ht]

/-- What is taken bounds the limit. -/
theorem Stands.take (h : s.Stands number skips takes) (ht : t.exact number = some n) :
    (s.take t).Stands number skips (takes ++ [n]) := by
  refine ⟨h.offset, ?_⟩
  have hlimit := h.limit
  rw [List.minimum_concat]
  cases hearlier : s.limit with
  | none =>
      have hmin : ⊤ = takes.minimum := by simpa [exactLimit, hearlier] using hlimit
      rw [← hmin, min_eq_right le_top]
      simp [exactLimit, Select.take, hearlier, ht]
  | some u =>
      obtain ⟨m, hu, hmin⟩ : ∃ m, u.exact number = some m ∧ (m : WithTop ℤ) = takes.minimum := by
        simpa [exactLimit, hearlier] using hlimit
      rw [← hmin]
      simp [exactLimit, Select.take, hearlier, Term.exact, hu, ht]

theorem Stands.window (h : s.Stands number skips takes) {α : Type} (xs : List α) :
    s.window number xs = some (clip skips.sum takes.minimum xs) := by
  rw [Select.window, h.offset, h.limit]
  rfl

/-- Skips are accepted before takes only. -/
theorem Stands.foldlM {ops : List Operation} {cuts : List Cut}
    (h : s.Stands number skips takes) (hcuts : List.Forall₂ (CutsAs ctx env number) ops cuts)
    (hfold : ops.foldlM (Select.apply ctx) s = .ok s') :
    ∃ later least, cuts = later.map Cut.skip ++ least.map Cut.take ∧
      (s.limit ≠ none → later = []) ∧ s'.Stands number (skips ++ later) (takes ++ least) := by
  induction hcuts generalizing s skips takes with
  | nil =>
      cases hfold
      exact ⟨[], [], rfl, fun _ => rfl, by simpa using h⟩
  | cons hcut _ ih =>
      obtain ⟨u, hu, hrest⟩ := bind_eq_ok.mp hfold
      obtain ⟨-, hu⟩ := apply_eq_ok hu
      cases hcut with
      | skip hcount =>
          obtain ⟨hlimit, t, ht, rfl⟩ := skip_eq_ok hu
          obtain ⟨later, least, rfl, -, hstands⟩ := ih (h.skip (hcount.term t ht)) hrest
          refine ⟨_ :: later, least, rfl, fun hnot => absurd hlimit hnot, ?_⟩
          simpa using hstands
      | take hcount =>
          obtain ⟨t, ht, rfl⟩ := take_eq_ok hu
          obtain ⟨later, least, rfl, hnone, hstands⟩ := ih (h.take (hcount.term t ht)) hrest
          obtain rfl := hnone nofun
          exact ⟨[], _ :: least, rfl, fun _ => rfl, by simpa using hstands⟩

end Select

theorem run_cut {op : Operation} {cut : Cut} (hcut : CutsAs ctx env number op cut)
    (xs : List Value) : (Stage.apply op).run env xs = pure (.list (cut.keep xs)) := by
  cases hcut with
  | skip hcount =>
      change (Eval.value env [] _ >>= _) = _
      rw [hcount.value]
      rfl
  | take hcount =>
      change (Eval.value env [] _ >>= _) = _
      rw [hcount.value]
      rfl

theorem run_cuts {ops : List Operation} {cuts : List Cut}
    (hcuts : List.Forall₂ (CutsAs ctx env number) ops cuts) (xs : List Value) :
    runStages env (.list xs) (Stage.ofOperations ops) = pure (.list (cuts.foldl Cut.keep xs)) := by
  induction hcuts generalizing xs with
  | nil => rfl
  | @cons op cut ops cuts hcut _ ih =>
      have hstages : Stage.ofOperations (op :: ops) = .apply op :: Stage.ofOperations ops := by
        cases hcut <;> rfl
      rw [hstages, runStages, run_cut hcut, pure_bind, ih, List.foldl_cons]

/-! ## Counts of a reading -/

namespace Reading

variable {rd : Reading}

def numberOf (rd : Reading) (t : Term) : Option Int64 := (rd.value [] t).toOption.bind Value.asInt?

theorem numberOf_eq {t : Term} {n : Int64} (h : rd.value [] t = .ok (.int n)) :
    rd.numberOf t = some n := by
  rw [numberOf, h]
  rfl

/-- A sum is a number only if both operands are, and then it does not overflow. -/
theorem add_eq_int {a b : Value} {n : Int64} (h : BinOp.apply .add a b = .ok (.int n)) :
    ∃ m k, a = .int m ∧ b = .int k ∧ n.toInt = m.toInt + k.toInt := by
  have hint {v : Value} (hv : v.ty = .int) : ∃ m, v = .int m := by
    cases v <;> simp_all [Value.ty]
  have hadd : BinOp.arithmetic .add a b = .ok (.int n) := h
  obtain ⟨ha, hb⟩ := (arithmetic_ty hadd).1 rfl
  obtain ⟨m, rfl⟩ := hint ha
  obtain ⟨k, rfl⟩ := hint hb
  refine ⟨m, k, rfl, rfl, ?_⟩
  cases hfit : Checked.add m k with
  | none => simp [BinOp.apply, BinOp.isComparison, BinOp.arithmetic, BinOp.onInts, hfit] at h
  | some r =>
      simp [BinOp.apply, BinOp.isComparison, BinOp.arithmetic, BinOp.onInts, hfit] at h
      rw [← h]
      exact Checked.fit?_eq_some_iff.mp hfit

theorem least_eq_int {a b : Value} {n : Int64} (h : callValue "LEAST" [a, b] = .ok (.int n)) :
    ∃ m k, a = .int m ∧ b = .int k ∧ n.toInt = min m.toInt k.toInt := by
  unfold callValue at h
  split at h
  · rename_i m k hargs
    cases hargs
    refine ⟨m, k, rfl, rfl, ?_⟩
    rw [if_pos rfl] at h
    cases h
    split <;> omega
  · cases h

/-- A number that a term is read as is its exact number. -/
theorem exact_eq {t : Term} {n : Int64} (h : rd.value [] t = .ok (.int n)) :
    t.exact rd.numberOf = some n.toInt := by
  fun_induction Term.exact rd.numberOf t generalizing n with
  | case1 left right ihl ihr =>
      rw [value, if_neg (by decide)] at h
      obtain ⟨a, ha, h⟩ := bind_eq_ok.mp h
      obtain ⟨b, hb, h⟩ := bind_eq_ok.mp h
      obtain ⟨m, k, rfl, rfl, hsum⟩ := add_eq_int h
      rw [ihl ha, ihr hb, hsum]
      rfl
  | case2 a b t iha ihb =>
      rw [value, values, values, values] at h
      obtain ⟨vs, hvs, h⟩ := bind_eq_ok.mp h
      obtain ⟨v, hv, hvs⟩ := bind_eq_ok.mp hvs
      obtain ⟨ws, hws, hvs⟩ := bind_eq_ok.mp hvs
      obtain ⟨w, hw, hws⟩ := bind_eq_ok.mp hws
      cases hws
      cases hvs
      obtain ⟨m, k, rfl, rfl, hmin⟩ := least_eq_int h
      rw [iha hv, ihb hw, hmin]
      rfl
  | case3 t =>
      rw [numberOf_eq h]
      rfl

theorem countsAs_constant (ctx : Context) (env : Env) (n : Int64) (t : Ty) :
    CountsAs ctx env rd.numberOf (.constant (.int n) t) n := by
  refine ⟨rfl, fun u hu => ?_⟩
  cases hu
  exact exact_eq rfl

/-- A placeholder is a count by the number that is bound to it. -/
theorem countsAs_placeholder (ctx : Context) {env : Env} (hparams : env.params = some rd.params)
    {name : String} {n : Int64} (hfind : Named.find? name rd.params = some (.int n)) :
    CountsAs ctx env rd.numberOf (.parameter name .int) n := by
  have hvalue : rd.value [] (.parameter name) = .ok (.int n) := by rw [Reading.value, hfind]
  constructor
  · rw [Eval.value, lookup_free hparams rfl, hvalue]
    rfl
  · intro u hu
    cases hu
    refine exact_eq ?_
    change rd.value [] (.cast (.parameter name) .int) = _
    rw [Reading.value, hvalue]
    rfl

end Reading

/-- The offset and the limit of a statement leave the rows that its skips and takes leave, on all
rows and with numbers of any sign and size, exactly if no rows are left at all or no skip has a
negative count while another one has a positive count. -/
theorem window_eq_run_iff {ops : List Operation} {cuts : List Cut} (hoffset : s.offset = none)
    (hlimit : s.limit = none) (hcuts : List.Forall₂ (CutsAs ctx env number) ops cuts)
    (hfold : ops.foldlM (Select.apply ctx) s = .ok s') :
    (∀ xs, ∃ ys, s'.window number xs = some ys ∧
        runStages env (.list xs) (Stage.ofOperations ops) = pure (.list ys)) ↔
      (∃ n, .take n ∈ cuts ∧ n ≤ 0) ∨
        ¬ ∃ m n, .skip m ∈ cuts ∧ .skip n ∈ cuts ∧ m < 0 ∧ 0 < n := by
  have hstart : s.Stands number [] [] :=
    ⟨by simp [Select.exactOffset, hoffset], by simp [Select.exactLimit, hlimit]⟩
  obtain ⟨skips, takes, rfl, -, hstands⟩ := hstart.foldlM hcuts hfold
  have hle : skips.sum.toNat ≤ (skips.map Int.toNat).sum := by
    have := sum_eq_sub skips
    omega
  have hclip := @clip_eq_iff skips.sum ((skips.map Int.toNat).sum : ℕ) hle takes.minimum
  rw [Int.toNat_natCast, ← WithTop.coe_zero, List.minimum_le_coe_iff, toNat_sum_eq_iff] at hclip
  have hskip (n : ℤ) : .skip n ∈ skips.map Cut.skip ++ takes.map Cut.take ↔ n ∈ skips := by simp
  have htake (n : ℤ) : .take n ∈ skips.map Cut.skip ++ takes.map Cut.take ↔ n ∈ takes := by simp
  simp only [hskip, htake]
  rw [← hclip]
  refine forall_congr' fun xs => ?_
  rw [hstands.window, run_cuts hcuts, Cut.foldl_keep]
  constructor
  · rintro ⟨ys, hys, hrun⟩
    obtain ⟨hlist, -⟩ := Eval.pure_eq_ok.mp (congrFun hrun 0)
    exact (Option.some.inj hys).trans (Value.list.inj hlist).symm
  · intro hsame
    exact ⟨_, rfl, by rw [List.nil_append, List.nil_append, hsame]⟩

/-! ### Counts of both signs -/

/-- People are skipped by a captured number, then again by a constant, and at most three taken. -/
def paged : List Operation :=
  [.skip (.parameter "__x_0" .int), .skip (.constant (.int 0) .int),
    .take (.constant (.int 3) .int)]

def everyone : Select where
  table := "people"
  join := none
  filters := []
  order := []
  primaryKeys := 0
  limit := none
  offset := none
  distinct := false
  comments := []
  current := .entity Select.outerName "Person"
  cardinality := .many

/-- A negative number is captured, and nothing else skips rows. -/
theorem window_of_paged :
    let rd : Reading := ⟨Statement.census, fun _ => [], [⟨"__x_0", .int (-4)⟩]⟩
    let env : Env := ⟨some rd.params, none, ⟨fun _ => ⟨0⟩, fun _ => ⟨0, 0⟩⟩⟩
    let ctx : Context := ⟨Statement.census, FunctionRule.standard⟩
    ∃ s, Select.ofSource ctx.schema ⟨"Person", "people"⟩ = .ok everyone ∧
      paged.foldlM (Select.apply ctx) everyone = .ok s ∧
      ∀ xs, ∃ ys, s.window rd.numberOf xs = some ys ∧
        runStages env (.list xs) (Stage.ofOperations paged) = pure (.list ys) := by
  intro rd env ctx
  have hcuts : List.Forall₂ (CutsAs ctx env rd.numberOf) paged
      [.skip (-4 : Int64).toInt, .skip (0 : Int64).toInt, .take (3 : Int64).toInt] :=
    .cons (.skip (Reading.countsAs_placeholder ctx rfl rfl))
      (.cons (.skip (Reading.countsAs_constant ctx env 0 .int))
        (.cons (.take (Reading.countsAs_constant ctx env 3 .int)) .nil))
  have hoffset : everyone.offset = none := rfl
  refine ⟨_, rfl, rfl, (window_eq_run_iff hoffset rfl hcuts rfl).mpr (.inr ?_)⟩
  rintro ⟨m, n, -, hn, -, hpositive⟩
  simp only [List.mem_cons, Cut.skip.injEq, List.not_mem_nil, or_false] at hn
  rcases hn with rfl | rfl | hn
  · exact absurd hpositive (by decide)
  · exact absurd hpositive (by decide)
  · cases hn

/-- The operators skip no one and then two people, and leave one of three. The offset of the
statement is one, which leaves two. -/
theorem window_of_cancelled :
    let rd : Reading := ⟨Statement.census, fun _ => [], []⟩
    let env : Env := ⟨some rd.params, none, ⟨fun _ => ⟨0⟩, fun _ => ⟨0, 0⟩⟩⟩
    let ctx : Context := ⟨Statement.census, FunctionRule.standard⟩
    let ops : List Operation :=
      [.skip (.constant (.int (-1)) .int), .skip (.constant (.int 2) .int)]
    ∃ (s : Select) (q : Statement), ops.foldlM (Select.apply ctx) everyone = .ok s ∧
      Statement.ofSelect ctx.schema s = .ok q ∧
      q.text = "SELECT t0.\"Age\" AS \"Age\" FROM \"people\" AS t0 OFFSET (-1 + 2)" ∧
      s.window rd.numberOf [Value.int 1, .int 2, .int 3] = some [.int 2, .int 3] ∧
      runStages env (.list [.int 1, .int 2, .int 3]) (Stage.ofOperations ops) =
        pure (.list [.int 3]) :=
  ⟨_, _, rfl, rfl, rfl, rfl, rfl⟩

end DeferredQuery.Sql
