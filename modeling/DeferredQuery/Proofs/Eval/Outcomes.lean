import DeferredQuery.Proofs.Eval.Follows

/-!
# The errors and the entity sets of an evaluation

Evaluation looks up no other parameters than those of the expression, and the entity sets in its
values are those of its constants, its parameters and the rows that it reads. So a parameter is
unbound, or a source of rows missing, only where one of these is. A secondary sort key refines the
sort that its source is, by the syntax of the source and not by its value. So a sort is missing only
where a key does not stand on one.
-/

namespace DeferredQuery

/-! ## Entity sets in values -/

namespace Value

mutual

def roots : Value → List SetRef
  | .null => []
  | .bool _ => []
  | .int _ => []
  | .float _ => []
  | .string _ => []
  | .uuid _ => []
  | .instant _ => []
  | .list items => rootsOfList items
  | .record fields => rootsOfFields fields
  | .closure _ captures => rootsOfCaptures captures
  | .query root => [root]

def rootsOfList : List Value → List SetRef
  | [] => []
  | v :: rest => v.roots ++ rootsOfList rest

def rootsOfFields : List (Named Value) → List SetRef
  | [] => []
  | ⟨_, v⟩ :: rest => v.roots ++ rootsOfFields rest

def rootsOfCaptures : List (Capture Value) → List SetRef
  | [] => []
  | ⟨_, _, v⟩ :: rest => v.roots ++ rootsOfCaptures rest

end

/-- All entity sets in the value are among some. -/
def Within (S : SetRef → Prop) (v : Value) : Prop := ∀ root ∈ v.roots, S root

theorem within_true (v : Value) : v.Within fun _ => True := fun _ _ => trivial

variable {S : SetRef → Prop}

theorem within_of_roots {v : Value} (h : v.roots = []) : Within S v := by simp [Within, h]

@[simp] theorem within_null : Within S .null := within_of_roots rfl

@[simp] theorem within_bool (b : Bool) : Within S (.bool b) := within_of_roots rfl

@[simp] theorem within_int (n : Int64) : Within S (.int n) := within_of_roots rfl

@[simp] theorem within_float (x : Float) : Within S (.float x) := within_of_roots rfl

@[simp] theorem within_string (s : String) : Within S (.string s) := within_of_roots rfl

@[simp] theorem within_uuid (u : Uuid) : Within S (.uuid u) := within_of_roots rfl

@[simp] theorem within_instant (t : Instant) : Within S (.instant t) := within_of_roots rfl

@[simp] theorem within_query (root : SetRef) : Within S (.query root) ↔ S root := by
  simp [Within, roots]

theorem mem_rootsOfList {root : SetRef} {items : List Value} :
    root ∈ rootsOfList items ↔ ∃ v ∈ items, root ∈ v.roots := by
  induction items with
  | nil => simp [rootsOfList]
  | cons v items ih => simp [rootsOfList, ih]

theorem mem_rootsOfFields {root : SetRef} {fields : List (Named Value)} :
    root ∈ rootsOfFields fields ↔ ∃ field ∈ fields, root ∈ field.value.roots := by
  induction fields with
  | nil => simp [rootsOfFields]
  | cons field fields ih => simp [rootsOfFields, ih]

theorem mem_rootsOfCaptures {root : SetRef} {captures : List (Capture Value)} :
    root ∈ rootsOfCaptures captures ↔ ∃ c ∈ captures, root ∈ c.value.roots := by
  induction captures with
  | nil => simp [rootsOfCaptures]
  | cons c captures ih => simp [rootsOfCaptures, ih]

@[simp] theorem within_list {items : List Value} :
    Within S (.list items) ↔ ∀ v ∈ items, v.Within S := by
  simp only [Within, roots, mem_rootsOfList]
  exact ⟨fun h v hv root hroot => h root ⟨v, hv, hroot⟩,
    fun h root ⟨v, hv, hroot⟩ => h v hv root hroot⟩

@[simp] theorem within_record {fields : List (Named Value)} :
    Within S (.record fields) ↔ ∀ field ∈ fields, field.value.Within S := by
  simp only [Within, roots, mem_rootsOfFields]
  exact ⟨fun h field hfield root hroot => h root ⟨field, hfield, hroot⟩,
    fun h root ⟨field, hfield, hroot⟩ => h field hfield root hroot⟩

@[simp] theorem within_closure {name : String} {captures : List (Capture Value)} :
    Within S (.closure name captures) ↔ ∀ c ∈ captures, c.value.Within S := by
  simp only [Within, roots, mem_rootsOfCaptures]
  exact ⟨fun h c hc root hroot => h root ⟨c, hc, hroot⟩,
    fun h root ⟨c, hc, hroot⟩ => h c hc root hroot⟩

end Value

theorem Capture.of_find? {α : Type} {name : String} {cs : List (Capture α)} {c : Capture α}
    (h : Capture.find? name cs = some c) : c ∈ cs ∧ c.name = name := by
  induction cs with
  | nil => cases h
  | cons d cs ih =>
      rw [Capture.find?] at h
      split at h
      · rename_i hname
        cases h
        exact ⟨List.mem_cons_self, hname⟩
      · exact ⟨List.mem_cons_of_mem _ (ih h).1, (ih h).2⟩

/-! ## Outcomes -/

namespace EvalError

/-- The error comes neither from a parameter, nor from a source of rows, nor from a secondary sort
key without a sort. -/
structure Plain (e : EvalError) : Prop where
  parameter : ∀ name, e ≠ unboundParameter name
  source : ∀ set, e ≠ noSource set
  sort : e ≠ typeMismatch .notOrdered

theorem plain_mismatch {cause : Mismatch} (h : cause ≠ .notOrdered) :
    (typeMismatch cause).Plain :=
  ⟨nofun, nofun, by simpa using h⟩

end EvalError

namespace Eval

variable {α β : Type} {E F : EvalError → Prop} {Q : α → Prop} {R : β → Prop}

def Gives (E : EvalError → Prop) (Q : α → Prop) (x : Except EvalError α) : Prop :=
  match x with
  | .ok a => Q a
  | .error e => E e

theorem Gives.ok {a : α} (h : Q a) : Gives E Q (.ok a) := h

theorem Gives.error {e : EvalError} (h : E e) : Gives E Q (.error e : Except EvalError α) := h

theorem Gives.mono {Q' : α → Prop} {x : Except EvalError α} (h : Gives E Q x)
    (hE : ∀ e, E e → F e) (hQ : ∀ a, Q a → Q' a) : Gives F Q' x := by
  cases x with
  | ok a => exact hQ a h
  | error e => exact hE e h

/-- Wherever the oracle stands. -/
def Meets (E : EvalError → Prop) (Q : α → Prop) (m : EvalM α) : Prop :=
  ∀ n, Gives E (fun r => Q r.1) (m n)

namespace Meets

variable {m : EvalM α} {f : α → EvalM β}

theorem pure {a : α} (h : Q a) : Meets E Q (Pure.pure a : EvalM α) := fun _ => h

theorem throw {e : EvalError} (h : E e) : Meets E Q (throw e : EvalM α) := fun _ => h

theorem lift {x : Except EvalError α} (h : Gives E Q x) : Meets E Q (liftM x : EvalM α) := by
  intro n
  cases x with
  | ok a => exact h
  | error e => exact h

theorem bind (hm : Meets E Q m) (hf : ∀ a, Q a → Meets E R (f a)) : Meets E R (m >>= f) := by
  intro n
  have hn := hm n
  change Gives E _ (m n >>= fun r => f r.1 r.2)
  cases h : m n with
  | ok r =>
      rw [h] at hn
      exact hf r.1 hn r.2
  | error e =>
      rw [h] at hn
      exact hn

theorem mono {Q' : α → Prop} (hm : Meets E Q m) (hQ : ∀ a, Q a → Q' a) : Meets E Q' m :=
  fun n => (hm n).mono (fun _ h => h) fun r h => hQ r.1 h

end Meets

/-! ## Scalars -/

section Scalars

open EvalError (Plain plain_mismatch)

variable {S : SetRef → Prop}

/-- A member of a value has no entity sets but those of the value. -/
theorem gives_storedMember {v : Value} (h : v.Within S) (name : String) :
    Gives Plain (Value.Within S) (v.storedMember name) := by
  unfold Value.storedMember
  split
  · rename_i fields
    cases hfind : Named.find? name fields with
    | none => exact .error ⟨nofun, nofun, nofun⟩
    | some w => exact .ok (Value.within_record.mp h _ (Named.mem_of_find? hfind))
  · rename_i className captures
    cases hfind : Capture.find? name captures with
    | none => exact .error ⟨nofun, nofun, nofun⟩
    | some c => exact .ok (Value.within_closure.mp h c (Capture.of_find? hfind).1)
  · exact .error ⟨nofun, nofun, nofun⟩
  · exact .error ⟨nofun, nofun, nofun⟩

theorem within_computedMember? {v w : Value} {name : String}
    (h : v.computedMember? name = some w) : w.Within S := by
  unfold Value.computedMember? at h
  split at h
  · split at h <;> simp at h
    exact h ▸ Value.within_int _
  · split at h <;> simp at h
    exact h ▸ Value.within_int _
  · split at h <;> simp at h <;> exact h ▸ Value.within_int _
  · cases h

theorem gives_member {v : Value} (h : v.Within S) (name : String) :
    Gives Plain (Value.Within S) (v.member name) := by
  have hstored := gives_storedMember h name
  unfold Value.member
  split
  · cases hcomputed : v.computedMember? name with
    | none => exact .error ⟨nofun, nofun, nofun⟩
    | some w => exact .ok (within_computedMember? hcomputed)
  · exact hstored

theorem within_convert {v : Value} (h : v.Within S) (t : Ty) : (v.convert t).Within S := by
  unfold Value.convert
  split
  · exact Value.within_float _
  · exact Value.within_int _
  · exact h

theorem gives_truth (v : Value) : Gives Plain (fun _ => True) v.truth := by
  cases v <;> first | trivial | exact plain_mismatch nofun

theorem gives_holds (v : Value) : Gives Plain (fun _ => True) v.holds := by
  cases v <;> first | trivial | exact plain_mismatch nofun

theorem gives_count (v : Value) : Gives Plain (fun _ => True) v.count := by
  cases v <;> first | trivial | exact plain_mismatch nofun

theorem gives_unary (op : UnOp) (v : Value) : Gives Plain (Value.Within S) (op.apply v) := by
  unfold UnOp.apply
  split
  · exact .ok Value.within_null
  · exact .ok (Value.within_bool _)
  · split
    · exact .ok (Value.within_int _)
    · exact .error ⟨nofun, nofun, nofun⟩
  · exact .ok (Value.within_float _)
  · exact .error (plain_mismatch nofun)

theorem gives_compare (op : BinOp) (a b : Value) :
    Gives Plain (fun _ => True) (op.compare a b) := by
  unfold BinOp.compare
  split
  · trivial
  · trivial
  · split
    · trivial
    · split
      · trivial
      · exact plain_mismatch nofun

/-- Arithmetic makes no entity sets, and fails in plain ways. -/
theorem gives_arithmetic (op : BinOp) (a b : Value) :
    Gives Plain (Value.Within S) (op.arithmetic a b) := by
  unfold BinOp.arithmetic
  split
  · exact .ok Value.within_null
  · exact .ok Value.within_null
  · split
    · exact .error ⟨nofun, nofun, nofun⟩
    · split
      · exact .ok (Value.within_int _)
      · exact .error ⟨nofun, nofun, nofun⟩
  · split
    · exact .ok (Value.within_string _)
    · split
      · exact .ok (Value.within_float _)
      · exact .error (plain_mismatch nofun)

theorem gives_binary (op : BinOp) (a b : Value) :
    Gives Plain (Value.Within S) (op.apply a b) := by
  unfold BinOp.apply
  split
  · have hcompare := gives_compare op a b
    cases h : op.compare a b with
    | ok r => exact .ok (Value.within_bool r)
    | error e =>
        rw [h] at hcompare
        exact hcompare
  · exact gives_arithmetic op a b

/-- Scalar functions make no entity sets, and fail in plain ways. -/
theorem gives_method (m : Method) (receiver : Option Value) (args : List Value) :
    Gives Plain (Value.Within S) (m.apply receiver args) := by
  unfold Method.apply
  split
  · split
    · exact .ok (Value.within_float _)
    · exact .ok Value.within_null
  · split
    · exact .ok (Value.within_int _)
    · exact .error ⟨nofun, nofun, nofun⟩
  · exact .ok (Value.within_float _)
  · exact .error ⟨nofun, nofun, nofun⟩
  · exact .ok (Value.within_string _)
  · exact .ok (Value.within_string _)
  · exact .ok (Value.within_bool _)
  · exact .ok (Value.within_bool _)
  · exact .error ⟨nofun, nofun, nofun⟩

end Scalars

/-! ## Operators on items -/

namespace Items

open DeferredQuery.Items

variable {R R' : Value → Prop} {S : SetRef → Prop} {E : EvalError → Prop}

abbrev All (R : Value → Prop) (items : List Value) : Prop := ∀ v ∈ items, R v

abbrev AllWithin (S : SetRef → Prop) (items : List Value) : Prop := All (Value.Within S) items

theorem meets_keep {p : Value → EvalM Bool} {items : List Value} (h : All R items)
    (hp : ∀ v, R v → Meets E (fun _ => True) (p v)) : Meets E (All R) (keep p items) := by
  induction items with
  | nil => exact .pure nofun
  | cons v items ih =>
      obtain ⟨hv, hrest⟩ := List.forall_mem_cons.mp h
      refine (hp v hv).bind fun kept _ => (ih hrest).bind fun vs hvs => .pure ?_
      split
      · exact List.forall_mem_cons.mpr ⟨hv, hvs⟩
      · exact hvs

theorem meets_select {f : Value → EvalM Value} {items : List Value} (h : All R items)
    (hf : ∀ v, R v → Meets E R' (f v)) : Meets E (All R') (select f items) := by
  induction items with
  | nil => exact .pure nofun
  | cons v items ih =>
      obtain ⟨hv, hrest⟩ := List.forall_mem_cons.mp h
      refine (hf v hv).bind fun w hw => (ih hrest).bind fun ws hws => .pure ?_
      exact List.forall_mem_cons.mpr ⟨hw, hws⟩

def KeysMeet (R : Value → Prop) (E : EvalError → Prop) (keys : List (Key EvalM)) : Prop :=
  ∀ k ∈ keys, ∀ v : Value, R v → Meets E (fun _ => True) (k.selector v)

theorem keysMeet_nil : KeysMeet R E [] := nofun

theorem meets_keyValues {keys : List (Key EvalM)} (hkeys : KeysMeet R E keys) {v : Value}
    (hv : R v) : Meets E (fun _ => True) (keyValues keys v) := by
  induction keys with
  | nil => exact .pure trivial
  | cons k keys ih =>
      obtain ⟨hk, hrest⟩ := List.forall_mem_cons.mp hkeys
      exact (hk v hv).bind fun w _ => (ih hrest).bind fun ws _ => .pure trivial

theorem meets_keyed {keys : List (Key EvalM)} (hkeys : KeysMeet R E keys) {items : List Value}
    (h : All R items) : Meets E (fun xs => ∀ x ∈ xs, R x.item) (keyed keys items) := by
  induction items with
  | nil => exact .pure nofun
  | cons v items ih =>
      obtain ⟨hv, hrest⟩ := List.forall_mem_cons.mp h
      refine (meets_keyValues hkeys hv).bind fun ks _ => (ih hrest).bind fun xs hxs => .pure ?_
      exact List.forall_mem_cons.mpr ⟨hv, hxs⟩

theorem meets_order {keys : List (Key EvalM)} (hkeys : KeysMeet R E keys) {items : List Value}
    (h : All R items) : Meets E (All R) (Items.order keys items) := by
  refine (meets_keyed hkeys h).bind fun xs hxs => .pure fun v hv => ?_
  obtain ⟨x, hx, rfl⟩ := List.mem_map.mp hv
  exact hxs x (List.mem_mergeSort.mp hx)

theorem mem_of_mem_distinctFrom {kept items : List Value} {v : Value}
    (h : v ∈ distinctFrom kept items) : v ∈ items := by
  induction items generalizing kept with
  | nil => cases h
  | cons w items ih =>
      rw [distinctFrom] at h
      split at h
      · exact List.mem_cons_of_mem _ (ih h)
      · rcases List.mem_cons.mp h with rfl | h
        · exact List.mem_cons_self
        · exact List.mem_cons_of_mem _ (ih h)

/-- What is made of the items alone has no other entity sets than these. -/
theorem gives_collapse (m : Method) {items : List Value} (h : AllWithin S items) :
    Gives EvalError.Plain (Value.Within S) (collapse m items) := by
  unfold collapse
  split
  · exact .ok (Value.within_list.mpr fun v hv => h v (mem_of_mem_distinctFrom hv))
  · exact .ok (Value.within_int _)
  · exact .ok (Value.within_bool _)
  · cases items with
    | nil => exact .error ⟨nofun, nofun, nofun⟩
    | cons v items => exact .ok (h v List.mem_cons_self)
  · cases items with
    | nil => exact .ok Value.within_null
    | cons v items => exact .ok (h v List.mem_cons_self)
  · match items, h with
    | [], _ => exact .error ⟨nofun, nofun, nofun⟩
    | [v], h => exact .ok (h v List.mem_cons_self)
    | _ :: _ :: _, _ => exact .error ⟨nofun, nofun, nofun⟩
  · exact .error ⟨nofun, nofun, nofun⟩

section Join

variable {Ri : Value → Prop} {o i : Value → EvalM Value} {f : Value → Value → EvalM Value}
  (hf : ∀ v w : Value, R v → Ri w → Meets E R' (f v w))

include hf in
theorem meets_joinRow {outer : Value} (houter : R outer) (key : Value)
    {inner : List (Value × Value)} (hinner : ∀ x ∈ inner, Ri x.1) :
    Meets E (All R') (joinRow f outer key inner) := by
  induction inner with
  | nil => exact .pure nofun
  | cons x inner ih =>
      obtain ⟨hx, hrest⟩ := List.forall_mem_cons.mp hinner
      simp only [joinRow]
      split
      · refine (hf outer x.1 houter hx).bind fun v hv => (ih hrest).bind fun vs hvs => .pure ?_
        exact List.forall_mem_cons.mpr ⟨hv, hvs⟩
      · exact ih hrest

include hf in
theorem meets_joinRows (ho : ∀ v, R v → Meets E (fun _ => True) (o v))
    {outer : List Value} (houter : All R outer) {inner : List (Value × Value)}
    (hinner : ∀ x ∈ inner, Ri x.1) :
    Meets E (All R') (joinRows o f inner outer) := by
  induction outer with
  | nil => exact .pure nofun
  | cons v outer ih =>
      obtain ⟨hv, hrest⟩ := List.forall_mem_cons.mp houter
      refine (ho v hv).bind fun key _ => ?_
      cases key.isNull with
      | true => exact (ih hrest).bind fun rest hrest' => .pure hrest'
      | false =>
          refine (meets_joinRow hf hv key hinner).bind fun row hrow => ?_
          exact (ih hrest).bind fun rest hrest' =>
            .pure (List.forall_mem_append.mpr ⟨hrow, hrest'⟩)

include hf in
theorem meets_join (ho : ∀ v, R v → Meets E (fun _ => True) (o v))
    (hi : ∀ v, Ri v → Meets E (fun _ => True) (i v)) {outer inner : List Value}
    (houter : All R outer) (hinner : All Ri inner) :
    Meets E (All R') (join o i f outer inner) := by
  have hkeys : Meets E (All fun _ => True) (select i inner) := meets_select hinner hi
  refine hkeys.bind fun keys _ => meets_joinRows hf ho houter fun x hx => ?_
  exact hinner x.1 (List.of_mem_zip hx).1

end Join

end Items

end Eval

/-! ## Sorts by several keys -/

namespace Expr

def sorts : Expr → Bool
  | .call m _ _ _ => Eval.startsOrder m || Eval.extendsOrder m
  | _ => false

/-- Where the node sorts by a further key, its source sorts too. -/
def Refines : Expr → Prop
  | .call m _ (source :: _) _ => Eval.extendsOrder m = true → source.sorts = true
  | _ => True

/-- Each call that sorts by a further key has a source that sorts. -/
def WellOrdered (e : Expr) : Prop := ∀ n ∈ e.nodes, n.Refines

theorem wellOrdered_iff {e : Expr} :
    e.WellOrdered ↔ e.Refines ∧ ∀ c ∈ e.children, c.WellOrdered := by
  constructor
  · exact fun h => ⟨h e (self_mem_nodes e), fun c hc n hn => h n (mem_nodes_of_child hc hn)⟩
  · rintro ⟨hself, hchildren⟩ n hn
    rcases mem_nodes.mp hn with rfl | ⟨c, hc, hn⟩
    · exact hself
    · exact hchildren c hc n hn

theorem WellOrdered.refines {e : Expr} (h : e.WellOrdered) : e.Refines := h e (self_mem_nodes e)

end Expr

namespace Eval

/-! ## Expressions -/

/-- What an evaluation over the environment may fail with, and where its rows come from. -/
structure Permits (env : Env) (S : SetRef → Prop) (E : EvalError → Prop) : Prop where
  plain : ∀ e, e.Plain → E e
  rows : ∀ root, S root → Gives E (Items.AllWithin S) (env.items (.query root))

/-- Each name that is listed, or that may be without a value, has one of the given kind, in the
scope or as a placeholder, or else it is missing as it may be. -/
def Supplied (env : Env) (S : SetRef → Prop) (E : EvalError → Prop) (bound : List String)
    (scope : Scope) : Prop :=
  ∀ name, name ∈ bound ∨ E (.unboundParameter name) →
    Gives E (Value.Within S) (env.lookup scope name)

/-- Names that have values over some entity sets are supplied, whatever else is missing. -/
theorem Supplied.of_lookup {env : Env} {S : SetRef → Prop} {E : EvalError → Prop}
    {bound : List String} {scope : Scope}
    (hbound : ∀ name ∈ bound, ∃ v, env.lookup scope name = .ok v)
    (hwithin : ∀ name v, env.lookup scope name = .ok v → v.Within S) :
    Supplied env S E bound scope := by
  intro name hname
  cases hlookup : env.lookup scope name with
  | ok v => exact hwithin name v hlookup
  | error err =>
      have herr : err = .unboundParameter name := by
        unfold Env.lookup at hlookup
        split at hlookup <;> cases hlookup
        rfl
      rcases hname with hname | hname
      · obtain ⟨v, hv⟩ := hbound name hname
        rw [hv] at hlookup
        cases hlookup
      · exact herr ▸ hname

/-- The parameters of a lambda are supplied with its arguments, and hide outer ones of their names.
-/
theorem Supplied.bindArgs {env : Env} {S : SetRef → Prop} {E : EvalError → Prop}
    {bound : List String} {scope : Scope} (h : Supplied env S E bound scope) {params : List Binder}
    {args : List Value} (hargs : Items.AllWithin S args) (hlength : params.length = args.length) :
    Supplied env S E (params.map Binder.name ++ bound) (bindArgs params args scope) := by
  intro name hname
  unfold Eval.bindArgs
  rw [lookup_append]
  cases hfind : Named.find? name
      ((params.zip args).map fun x => (⟨x.1.name, x.2⟩ : Named Value)).reverse with
  | some v =>
      have hmem := List.mem_reverse.mp (Named.mem_of_find? hfind)
      obtain ⟨⟨p, w⟩, hpw, ⟨⟩⟩ := List.mem_map.mp hmem
      exact hargs w (List.of_mem_zip hpw).2
  | none =>
      rw [List.mem_append, or_assoc] at hname
      rcases hname with hname | hname
      · obtain ⟨p, hp, rfl⟩ := List.mem_map.mp hname
        have hsome := Named.find?_isSome_iff.mpr (exists_mem_bindArgs hlength hp)
        rw [hfind] at hsome
        cases hsome
      · exact h name hname

/-- With values for some names, the values of the expression, its results as a lambda and the
sorts that end in it have entity sets and errors of the given kinds only. A sort may be missing, or
else the expression sorts. -/
structure Confined (env : Env) (S : SetRef → Prop) (E : EvalError → Prop) (bound : List String)
    (e : Expr) : Prop where
  value : ∀ scope, Supplied env S E bound scope → Meets E (Value.Within S) (value env scope e)
  invoke : ∀ scope args, Supplied env S E bound scope → Items.AllWithin S args →
    Meets E (Value.Within S) (invoke env scope args e)
  ordered : E (.typeMismatch .notOrdered) ∨ e.sorts = true → ∀ scope keys,
    Supplied env S E bound scope → Items.KeysMeet (Value.Within S) E keys →
    Meets E (Items.AllWithin S) (ordered env scope keys e)

/-- What the expression lacks may be lacking: the values of its free parameters, but for some, and
the sorts of its secondary sort keys. Its constants have entity sets of the given kind only. -/
structure Safe (S : SetRef → Prop) (E : EvalError → Prop) (bound : List String) (e : Expr) :
    Prop where
  bound : (∀ name, E (.unboundParameter name)) ∨ e.boundIn bound = true
  ordered : E (.typeMismatch .notOrdered) ∨ e.WellOrdered
  constants : ∀ v t, .constant v t ∈ e.nodes → v.Within S

theorem Safe.child {S : SetRef → Prop} {E : EvalError → Prop} {bound : List String} {c e : Expr}
    (h : Safe S E bound e) (hc : c ∈ e.children) : Safe S E (e.binders ++ bound) c where
  bound := h.bound.imp_right fun hbound => (Expr.boundIn_iff.mp hbound).2 c hc
  ordered := h.ordered.imp_right fun hordered => (Expr.wellOrdered_iff.mp hordered).2 c hc
  constants v t hv := h.constants v t (Expr.mem_nodes_of_child hc hv)

section Nodes

variable {env : Env} {S : SetRef → Prop} {E : EvalError → Prop} {bound : List String}
  (henv : Permits env S E)

theorem meets_values {es : List Expr} (h : ∀ e ∈ es, Confined env S E bound e) {scope : Scope}
    (hscope : Supplied env S E bound scope) : Meets E (fun _ => True) (values env scope es) := by
  induction es with
  | nil => exact .pure trivial
  | cons e es ih =>
      obtain ⟨he, hrest⟩ := List.forall_mem_cons.mp h
      exact (he.value scope hscope).bind fun v _ => (ih hrest).bind fun vs _ => .pure trivial

theorem meets_fieldValues {fields : List (Named Expr)}
    (h : ∀ field ∈ fields, Confined env S E bound field.value) {scope : Scope}
    (hscope : Supplied env S E bound scope) :
    Meets E (fun vs => ∀ x ∈ vs, x.value.Within S) (fieldValues env scope fields) := by
  induction fields with
  | nil => exact .pure nofun
  | cons field fields ih =>
      obtain ⟨hfield, hrest⟩ := List.forall_mem_cons.mp h
      refine (hfield.value scope hscope).bind fun v hv => (ih hrest).bind fun vs hvs => .pure ?_
      exact List.forall_mem_cons.mpr ⟨hv, hvs⟩

theorem keysMeet_cons {selector : Expr} (h : Confined env S E bound selector) {scope : Scope}
    (hscope : Supplied env S E bound scope) {keys : List (Items.Key EvalM)}
    (hkeys : Items.KeysMeet (Value.Within S) E keys) (descending : Bool) :
    Items.KeysMeet (Value.Within S) E
      (⟨fun v => invoke env scope [v] selector, descending⟩ :: keys) := by
  refine List.forall_mem_cons.mpr ⟨fun v hv => ?_, hkeys⟩
  exact (h.invoke scope [v] hscope (List.forall_mem_singleton.mpr hv)).mono fun _ _ => trivial

include henv

theorem Permits.mismatch {cause : Mismatch} (h : cause ≠ .notOrdered) : E (.typeMismatch cause) :=
  henv.plain _ (EvalError.plain_mismatch h)

theorem Permits.unsupported (m : Method) : E (.unsupportedMethod m) :=
  henv.plain _ ⟨nofun, nofun, nofun⟩

theorem Permits.lift {α : Type} {Q : α → Prop} {x : Except EvalError α}
    (h : Gives EvalError.Plain Q x) : Meets E Q (liftM x : EvalM α) :=
  .lift (h.mono henv.plain fun _ ha => ha)

theorem Permits.items {v : Value} (hv : v.Within S) :
    Meets E (Items.AllWithin S) (liftM (env.items v) : EvalM (List Value)) := by
  refine .lift ?_
  cases v with
  | list vs => exact Value.within_list.mp hv
  | query root => exact henv.rows root (Value.within_query root |>.mp hv)
  | null => exact henv.plain _ ⟨nofun, nofun, nofun⟩
  | _ => exact henv.mismatch nofun

theorem Permits.call (m : Method) (receiver : Option Value) (args : List Value) :
    Meets E (Value.Within S) (env.call m receiver args) := by
  unfold Env.call
  split
  · split
    · exact fun _ => Value.within_uuid _
    · exact fun _ => Value.within_instant _
  · exact henv.lift (gives_method m receiver args)

/-- The expressions that are neither lambdas nor calls. -/
theorem Confined.of_value {e : Expr} (hlambda : e.isLambda = false)
    (hcall : ∀ m receiver args t, e ≠ .call m receiver args t)
    (h : ∀ scope, Supplied env S E bound scope →
      Meets E (Value.Within S) (Eval.value env scope e)) : Confined env S E bound e where
  value := h
  invoke scope args _ _ := by
    cases e with
    | lambda => cases hlambda
    | _ => exact .throw (henv.mismatch (by simp))
  ordered hsorts scope keys _ _ := by
    cases e with
    | call m receiver args t => exact (hcall m receiver args t rfl).elim
    | _ => exact .throw (hsorts.resolve_right nofun)

/-- An operand that is not evaluated cannot fail. -/
theorem meets_binary {left right : Expr} (hl : Confined env S E bound left)
    (hr : Confined env S E bound right) (op : BinOp) {scope : Scope}
    (hscope : Supplied env S E bound scope) :
    Meets E (Value.Within S) (value env scope (.binary op left right)) := by
  by_cases hop : op.isLogical = true
  · simp only [value, if_pos hop]
    refine (hl.value scope hscope).bind fun v _ => (henv.lift (gives_truth v)).bind fun a _ => ?_
    cases op.decided? a with
    | some r => exact .pure (Value.within_bool r)
    | none =>
        exact (hr.value scope hscope).bind fun w _ => (henv.lift (gives_truth w)).bind fun b _ =>
          .pure (Value.within_bool b)
  · simp only [value, if_neg hop]
    exact (hl.value scope hscope).bind fun v _ => (hr.value scope hscope).bind fun w _ =>
      henv.lift (gives_binary op v w)

/-- One case per operator; the lambdas are invoked on items of the sequence. -/
theorem meets_apply {m : Method} {scope : Scope} (hscope : Supplied env S E bound scope)
    {items : List Value} (hitems : Items.AllWithin S items) {es : List Expr}
    (h : ∀ e ∈ es, Confined env S E bound e) :
    Meets E (Value.Within S) (apply env scope m items es) := by
  match es, h with
  | [], _ => exact henv.lift (Items.gives_collapse m hitems)
  | [e], h =>
      have he := h e List.mem_cons_self
      have hinvoke : ∀ v, v.Within S → Meets E (Value.Within S) (invoke env scope [v] e) :=
        fun v hv => he.invoke scope [v] hscope (List.forall_mem_singleton.mpr hv)
      have hholds : ∀ v, v.Within S → Meets E (fun _ => True) (invoke env scope [v] e >>=
          fun r => liftM r.holds : EvalM Bool) :=
        fun v hv => (hinvoke v hv).bind fun r _ => henv.lift (gives_holds r)
      simp only [apply]
      split
      · exact (Items.meets_keep hitems hholds).bind fun vs hvs =>
          .pure (Value.within_list.mpr hvs)
      split
      · exact (Items.meets_select hitems hinvoke).bind fun vs hvs =>
          .pure (Value.within_list.mpr hvs)
      split
      · have hkeys := keysMeet_cons he hscope Items.keysMeet_nil (sortsDown m)
        exact (Items.meets_order hkeys hitems).bind fun vs hvs => .pure (Value.within_list.mpr hvs)
      split
      · exact (he.value scope hscope).bind fun v _ => (henv.lift (gives_count v)).bind fun n _ =>
          .pure (Value.within_list.mpr fun w hw => hitems w (List.mem_of_mem_drop hw))
      split
      · exact (he.value scope hscope).bind fun v _ => (henv.lift (gives_count v)).bind fun n _ =>
          .pure (Value.within_list.mpr fun w hw => hitems w (List.mem_of_mem_take hw))
      split
      · exact (Items.meets_keep hitems hholds).bind fun vs hvs =>
          henv.lift (Items.gives_collapse m hvs)
      split
      · exact .pure (Value.within_list.mpr hitems)
      · exact .throw (henv.unsupported m)
  | [_, _], _ => exact .throw (henv.unsupported m)
  | [_, _, _], _ => exact .throw (henv.unsupported m)
  | [inner, outerKey, innerKey, result], h =>
      simp only [apply]
      split
      · refine ((h inner (by simp)).value scope hscope).bind fun v hv =>
          (henv.items hv).bind fun innerItems hinner => ?_
        have hkey : ∀ key, Confined env S E bound key → ∀ v, v.Within S →
            Meets E (fun _ => True) (invoke env scope [v] key) := fun key hkey v hv =>
          (hkey.invoke scope [v] hscope (List.forall_mem_singleton.mpr hv)).mono fun _ _ => trivial
        have hresult := fun v w (hv : Value.Within S v) (hw : Value.Within S w) =>
          (h result (by simp)).invoke scope [v, w] hscope
            (List.forall_mem_cons.mpr ⟨hv, List.forall_mem_singleton.mpr hw⟩)
        exact (Items.meets_join hresult (hkey outerKey (h outerKey (by simp)))
          (hkey innerKey (h innerKey (by simp))) hitems hinner).bind fun vs hvs =>
            .pure (Value.within_list.mpr hvs)
      · exact .throw (henv.unsupported m)
  | _ :: _ :: _ :: _ :: _ :: _, _ => exact .throw (henv.unsupported m)

/-- A source that sorts keeps an operator of further keys from failing for want of a sort. -/
theorem meets_operator {m : Method} {scope : Scope} (hscope : Supplied env S E bound scope)
    {es : List Expr} (h : ∀ e ∈ es, Confined env S E bound e)
    (hrefines : ∀ source ∈ es.head?, extendsOrder m = true →
      E (.typeMismatch .notOrdered) ∨ source.sorts = true) :
    Meets E (Value.Within S) (operator env scope m es) := by
  match es, h with
  | [], _ => exact .throw (henv.mismatch (by simp))
  | source :: args, h =>
      have hsource := h source List.mem_cons_self
      simp only [operator.eq_def]
      by_cases hsort : (startsOrder m || extendsOrder m) = true
      · simp only [hsort, if_true]
        match args, h with
        | [], _ => exact .throw (henv.mismatch (by simp))
        | [selector], h =>
            have hkeys := keysMeet_cons (h selector (by simp)) hscope
              Items.keysMeet_nil (sortsDown m)
            by_cases hextends : extendsOrder m = true
            · simp only [hextends, if_true]
              exact (hsource.ordered (hrefines source rfl hextends) scope _ hscope hkeys).bind
                fun vs hvs => .pure (Value.within_list.mpr hvs)
            · simp only [hextends]
              exact (hsource.value scope hscope).bind fun v hv =>
                (henv.items hv).bind fun items hitems =>
                  (Items.meets_order hkeys hitems).bind fun vs hvs =>
                    .pure (Value.within_list.mpr hvs)
        | _ :: _ :: _, _ => exact .throw (henv.mismatch (by simp))
      · simp only [hsort]
        exact (hsource.value scope hscope).bind fun v hv =>
          (henv.items hv).bind fun items hitems =>
            meets_apply henv hscope hitems fun e he => h e (List.mem_cons_of_mem _ he)

theorem meets_ordered {m : Method} {scope : Scope} (hscope : Supplied env S E bound scope)
    {receiver : Option Expr} {es : List Expr} {t : Ty} (h : ∀ e ∈ es, Confined env S E bound e)
    (hrefines : ∀ source ∈ es.head?, extendsOrder m = true →
      E (.typeMismatch .notOrdered) ∨ source.sorts = true)
    (hsorts : E (.typeMismatch .notOrdered) ∨ (startsOrder m || extendsOrder m) = true)
    {keys : List (Items.Key EvalM)} (hkeys : Items.KeysMeet (Value.Within S) E keys) :
    Meets E (Items.AllWithin S) (ordered env scope keys (.call m receiver es t)) := by
  match es, h with
  | [], _ => exact .throw (henv.mismatch (by simp))
  | [_], _ => exact .throw (henv.mismatch (by simp))
  | [source, selector], h =>
      have hsource := h source (by simp)
      have hkeys' := keysMeet_cons (h selector (by simp)) hscope hkeys (sortsDown m)
      simp only [ordered]
      split
      · exact hsource.ordered (hrefines source rfl ‹_›) scope _ hscope hkeys'
      split
      · exact (hsource.value scope hscope).bind fun v hv =>
          (henv.items hv).bind fun items hitems => Items.meets_order hkeys' hitems
      · exact .throw (hsorts.resolve_right (by simp_all))
  | _ :: _ :: _ :: _, _ => exact .throw (henv.mismatch (by simp))

/-- An operator works on expressions, and any other method on the values of its operands. -/
theorem meets_call {m : Method} {receiver : Option Expr} {args : List Expr} {t : Ty}
    (hreceiver : ∀ e, receiver = some e → Confined env S E bound e)
    (hargs : ∀ e ∈ args, Confined env S E bound e)
    (hrefines : ∀ source ∈ args.head?, extendsOrder m = true →
      E (.typeMismatch .notOrdered) ∨ source.sorts = true)
    {scope : Scope} (hscope : Supplied env S E bound scope) :
    Meets E (Value.Within S) (value env scope (.call m receiver args t)) := by
  by_cases hm : m.isOperator = true
  · rw [value_operator hm]
    exact meets_operator henv hscope hargs hrefines
  have hvalues := meets_values hargs hscope
  cases receiver with
  | none =>
      simp only [value, if_neg hm]
      exact hvalues.bind fun vs _ => henv.call m none vs
  | some e =>
      simp only [value, if_neg hm]
      exact ((hreceiver e rfl).value scope hscope).bind fun v _ =>
        hvalues.bind fun vs _ => henv.call m (some v) vs

/-- Evaluation fails in the admitted ways only. -/
theorem confined_of_safe {e : Expr} (h : Safe S E bound e) : Confined env S E bound e := by
  induction e generalizing bound with
  | constant v t =>
      exact .of_value henv rfl (by simp) fun _ _ => .pure (h.constants v t (Expr.self_mem_nodes _))
  | parameter name t =>
      refine .of_value henv rfl (by simp) fun scope hscope => .lift (hscope name ?_)
      rcases h.bound with hunbound | hbound
      · exact .inr (hunbound name)
      · exact .inl (by simpa [Expr.boundIn] using hbound)
  | member target name t ih =>
      have htarget := ih (h.child (by simp [Expr.children]))
      exact .of_value henv rfl (by simp) fun scope hscope =>
        (htarget.value scope hscope).bind fun v hv => henv.lift (gives_member hv name)
  | call m receiver args t ihr ihargs =>
      have hreceiver := fun e he => ihr e he (h.child (by simp [Expr.children, he]))
      have hargs := fun e he => ihargs e he (h.child (by simp [Expr.children, he]))
      have hrefines : ∀ source ∈ args.head?, extendsOrder m = true →
          E (.typeMismatch .notOrdered) ∨ source.sorts = true := by
        intro source hsource hextends
        obtain ⟨rest, rfl⟩ := List.head?_eq_some_iff.mp hsource
        refine h.ordered.imp_right fun hordered => ?_
        have hself : (Expr.call m receiver (source :: rest) t).Refines := hordered.refines
        exact hself hextends
      exact ⟨fun _ hscope => meets_call henv hreceiver hargs hrefines hscope,
        fun _ _ _ _ => .throw (henv.mismatch (by simp)),
        fun hsorts _ _ hscope hkeys => meets_ordered henv hscope hargs hrefines hsorts hkeys⟩
  | lambda params body ih =>
      have hbody := ih (h.child (by simp [Expr.children]))
      refine ⟨fun _ _ => .throw (henv.mismatch (by simp)), fun scope args hscope hargs => ?_,
        fun hsorts _ _ _ _ => .throw (hsorts.resolve_right (by simp [Expr.sorts]))⟩
      simp only [invoke]
      split
      · exact hbody.value _ (hscope.bindArgs hargs ‹_›)
      · exact .throw (henv.mismatch (by simp))
  | convert operand t ih =>
      have hoperand := ih (h.child (by simp [Expr.children]))
      exact .of_value henv rfl (by simp) fun scope hscope =>
        (hoperand.value scope hscope).bind fun v hv => .pure (within_convert hv t)
  | binary op left right ihl ihr =>
      have hleft := ihl (h.child (by simp [Expr.children]))
      have hright := ihr (h.child (by simp [Expr.children]))
      exact .of_value henv rfl (by simp) fun _ hscope => meets_binary henv hleft hright op hscope
  | unary op operand ih =>
      have hoperand := ih (h.child (by simp [Expr.children]))
      exact .of_value henv rfl (by simp) fun scope hscope =>
        (hoperand.value scope hscope).bind fun v _ => henv.lift (gives_unary op v)
  | record fields ih =>
      have hfields := fun field hfield => ih field hfield (h.child (List.mem_map_of_mem hfield))
      exact .of_value henv rfl (by simp) fun _ hscope =>
        (meets_fieldValues hfields hscope).bind fun _ hvs => .pure (Value.within_record.mpr hvs)
  | volatile inner ih =>
      have hinner := ih (h.child (by simp [Expr.children]))
      exact .of_value henv rfl (by simp) hinner.value

end Nodes

/-! ## Missing sorts -/

/-- Evaluation misses no sort where each secondary key stands on one, if the source of rows misses
none. -/
theorem evaluate_ne_notOrdered {env : Env} (hrows : ∀ rows, env.rows = some rows → ∀ root,
    rows root ≠ .error (.typeMismatch .notOrdered)) {e : Expr} (h : e.WellOrdered) (n : Nat) :
    evaluate env e n ≠ .error (.typeMismatch .notOrdered) := by
  intro herror
  let E : EvalError → Prop := fun err => err ≠ .typeMismatch .notOrdered
  have henv : Permits env (fun _ => True) E := by
    refine ⟨fun err herr => herr.sort, fun root _ => ?_⟩
    cases hitems : env.items (.query root) with
    | ok vs => exact .ok fun v _ => Value.within_true v
    | error err =>
        refine .error fun herr => ?_
        rw [herr, Env.items] at hitems
        split at hitems
        · exact hrows _ ‹_› root hitems
        · cases hitems
  have hready : Supplied env (fun _ => True) E [] [] :=
    .of_lookup (by simp) fun _ v _ => Value.within_true v
  have hsafe : Safe (fun _ => True) E [] e :=
    ⟨.inl fun name => by simp [E], .inr h, fun v _ _ => Value.within_true v⟩
  have hmeets := (confined_of_safe henv hsafe).value [] hready n
  rw [show value env [] e n = .error (.typeMismatch .notOrdered) from herror] at hmeets
  exact hmeets rfl

end Eval

end DeferredQuery
