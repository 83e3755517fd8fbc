import DeferredQuery.Proofs.QueryText.Reading
import DeferredQuery.Proofs.QueryText.Sound
import DeferredQuery.Proofs.Shape.Meaning

/-!
# Captured variables

A name that is neither a parameter nor an entity set is searched in the captured scope and in the
scopes nested in it, each one before those that it nests. What is found is read again twice, by
name: by the evaluator and by the extraction of its value. As long as no scope has two variables
of one name, both read the variable that the search has found.
-/

namespace DeferredQuery

/-! ## Scopes in order -/

/-- A scope is reached from another one through variables whose names no query can spell. -/
inductive Closure.Reaches : Closure → Closure → Prop
  | self (c : Closure) : Reaches c c
  | nested {c inner d : Closure} {field : Capture Value} : field ∈ c.captures →
    '>' ∈ field.name.toList → field.value = .closure inner.className inner.captures →
    Reaches inner d → Reaches c d

mutual

def Value.scopes : Value → List (List (Capture Value))
  | .closure _ captures => captures :: nestedScopes captures
  | _ => []

def nestedScopes : List (Capture Value) → List (List (Capture Value))
  | [] => []
  | ⟨name, _, v⟩ :: rest =>
    if name.toList.contains '>' then v.scopes ++ nestedScopes rest else nestedScopes rest

end

/-- The variables of all scopes that are reached from one, depth first. -/
def Closure.variables (c : Closure) : List (Capture Value) :=
  (Value.closure c.className c.captures).scopes.flatten

/-- Only variables under names that no query can spell hold nested scopes. -/
theorem mem_nestedScopes {fields : List (Capture Value)} {captures : List (Capture Value)} :
    captures ∈ nestedScopes fields ↔
      ∃ field ∈ fields, '>' ∈ field.name.toList ∧ captures ∈ field.value.scopes := by
  induction fields with
  | nil => simp [nestedScopes]
  | cons field fields ih =>
      rw [nestedScopes]
      split
      · rename_i hname
        simp [ih, List.contains_iff_mem.mp hname]
      · rename_i hname
        have hname : '>' ∉ field.name.toList := fun h => hname (List.contains_iff_mem.mpr h)
        simp [ih, hname]

theorem exists_reaches_of_mem_scopes {captures : List (Capture Value)} :
    ∀ {v : Value}, captures ∈ v.scopes → ∃ c d : Closure, v = .closure c.className c.captures ∧
      c.Reaches d ∧ d.captures = captures
  | .closure className fields, h => by
    rw [Value.scopes] at h
    rcases List.mem_cons.mp h with rfl | h
    · exact ⟨⟨className, captures⟩, _, rfl, .self _, rfl⟩
    · obtain ⟨field, hfield, hname, h⟩ := mem_nestedScopes.mp h
      obtain ⟨inner, d, hvalue, hreaches, hd⟩ := exists_reaches_of_mem_scopes h
      exact ⟨⟨className, fields⟩, d, rfl, .nested hfield hname hvalue hreaches, hd⟩
termination_by v => sizeOf v
decreasing_by
  have hsize := List.sizeOf_lt_of_mem hfield
  obtain ⟨name, ty, v⟩ := field
  simp only [Capture.mk.sizeOf_spec, Value.closure.sizeOf_spec] at hsize ⊢
  omega

theorem Closure.Reaches.mem_scopes {c d : Closure} (h : c.Reaches d) :
    d.captures ∈ (Value.closure c.className c.captures).scopes := by
  induction h with
  | self c => exact List.mem_cons_self
  | nested hfield hname hvalue _ ih =>
      exact List.mem_cons_of_mem _ (mem_nestedScopes.mpr ⟨_, hfield, hname, hvalue ▸ ih⟩)

/-- The variables that a search passes are those of the scopes that are reached. -/
theorem Closure.mem_variables {c : Closure} {field : Capture Value} :
    field ∈ c.variables ↔ ∃ d, c.Reaches d ∧ field ∈ d.captures := by
  rw [Closure.variables, List.mem_flatten]
  constructor
  · rintro ⟨captures, hcaptures, hfield⟩
    obtain ⟨className, fields⟩ := c
    obtain ⟨⟨_, _⟩, d, ⟨⟩, hreaches, rfl⟩ := exists_reaches_of_mem_scopes hcaptures
    exact ⟨d, hreaches, hfield⟩
  · rintro ⟨d, hreaches, hfield⟩
    exact ⟨_, hreaches.mem_scopes, hfield⟩

namespace Capture

theorem find?_append {α : Type} (name : String) (xs ys : List (Capture α)) :
    find? name (xs ++ ys) = (find? name xs).or (find? name ys) := by
  induction xs with
  | nil => rfl
  | cons x xs ih =>
      rw [List.cons_append, find?, find?]
      split
      · rfl
      · exact ih

theorem find?_isSome_iff {α : Type} {name : String} {cs : List (Capture α)} :
    (find? name cs).isSome ↔ ∃ c ∈ cs, c.name = name := by
  induction cs with
  | nil => simp [find?]
  | cons c cs ih =>
      rw [find?]
      split
      · rename_i hname
        simp [hname]
      · rename_i hname
        simp [hname, ih]

end Capture

/-! ## Reads of captured variables -/

namespace QueryText

open Eval (Oracle)

/-- Evaluation and extraction read the value, without a draw. -/
structure Retrieves (e : Expr) (v : Value) : Prop where
  closed : (Closedness.analyze e).closed = true
  value : ∀ env scope, Eval.value env scope e = pure v
  valueOf : ∀ oracle n, Extract.valueOf oracle e n = .ok ((v, Extract.partName e), n)

theorem retrieves_closure (c : Closure) :
    Retrieves (.const (.closure c.className c.captures)) (.closure c.className c.captures) :=
  ⟨rfl, fun _ _ => rfl, fun _ _ => rfl⟩

/-- A variable is retrieved as a member of the scope that holds it, if its name is its own there. -/
theorem Retrieves.member {target : Expr} {className : String} {captures : List (Capture Value)}
    (h : Retrieves target (.closure className captures))
    (hnames : (captures.map Capture.name).Nodup) {field : Capture Value}
    (hfield : field ∈ captures) :
    Retrieves (.member target field.name field.ty) field.value := by
  have hstored : (Value.closure className captures).storedMember field.name = .ok field.value := by
    simp [Value.storedMember, capture_find?_of_mem hnames hfield]
  refine ⟨by simp [Closedness.analyze, h.closed], fun env scope => ?_, fun oracle n => ?_⟩
  · rw [Eval.value, h.value, pure_bind, Extract.member_of_storedMember hstored]
    rfl
  · refine Eval.bind_eq_ok.mpr ⟨_, n, h.valueOf oracle n, ?_⟩
    dsimp only
    rw [hstored, Extract.partName]
    cases Extract.partName target <;> rfl

structure ReadsField (name : String) (e : Expr) (field : Capture Value) : Prop where
  eq_member : ∃ target, e = .member target name field.ty
  retrieves : Retrieves e field.value

theorem rel_or {α β : Type} {R : α → β → Prop} {o o' : Option α} {p p' : Option β}
    (h : Option.Rel R o p) (h' : Option.Rel R o' p') : Option.Rel R (o.or o') (p.or p') := by
  cases h with
  | some h => exact .some h
  | none => exact h'

mutual

/-- By induction on the search for a name, with an expression that retrieves the scope searched. -/
theorem rel_capture? {name : String} {target : Expr} : ∀ {v : Value}, Retrieves target v →
    (∀ captures ∈ v.scopes, (captures.map Capture.name).Nodup) →
      Option.Rel (ReadsField name) (capture? name target v) (Capture.find? name v.scopes.flatten)
  | .closure className captures, htarget, hnames => by
    rw [Value.scopes] at hnames ⊢
    obtain ⟨hown, hnested⟩ := List.forall_mem_cons.mp hnames
    rw [List.flatten_cons, Capture.find?_append, capture?]
    cases hfind : Capture.find? name captures with
    | some field =>
        obtain rfl : field.name = name := (Capture.of_find? hfind).2
        exact .some ⟨⟨target, rfl⟩, htarget.member hown (Capture.of_find? hfind).1⟩
    | none =>
        exact rel_nestedCapture? htarget hown (fun _ hfield => hfield) hnested
  | .null, _, _ | .bool _, _, _ | .int _, _, _ | .float _, _, _ | .string _, _, _ | .uuid _, _, _
  | .instant _, _, _ | .list _, _, _ | .record _, _, _ | .query _, _, _ => .none

/-- By recursion on the variables of a scope that are left to be searched. -/
theorem rel_nestedCapture? {name : String} {target : Expr} {className : String}
    {all : List (Capture Value)} : ∀ {fields : List (Capture Value)},
      Retrieves target (.closure className all) → (all.map Capture.name).Nodup →
        (∀ field ∈ fields, field ∈ all) →
          (∀ captures ∈ nestedScopes fields, (captures.map Capture.name).Nodup) →
            Option.Rel (ReadsField name) (nestedCapture? name target fields)
              (Capture.find? name (nestedScopes fields).flatten)
  | [], _, _, _, _ => .none
  | ⟨field, ty, v⟩ :: rest, htarget, hown, hall, hnames => by
    obtain ⟨hfield, hrest⟩ := List.forall_mem_cons.mp hall
    rw [nestedScopes] at hnames ⊢
    rw [nestedCapture?]
    split
    · rename_i hname
      rw [if_pos hname] at hnames
      obtain ⟨hinner, hnames⟩ := List.forall_mem_append.mp hnames
      rw [List.flatten_append, Capture.find?_append]
      exact rel_or (rel_capture? (htarget.member hown hfield) hinner)
        (rel_nestedCapture? htarget hown hrest hnames)
    · rename_i hname
      rw [if_neg hname] at hnames
      exact rel_nestedCapture? htarget hown hrest hnames

end

/-- The value of a variable is bound if its declared type is that of a value. -/
theorem ReadsField.extract {name : String} {e : Expr} {field : Capture Value}
    (h : ReadsField name e field) (hty : field.ty.isQueryable = false) (oracle : Oracle)
    (s : Extract.State) : ∃ placeholder, (extract oracle e).run s =
      (.ok (Extract.placeholderNode placeholder field.value field.ty),
        ⟨s.params.add placeholder field.value, s.draws⟩) := by
  obtain ⟨target, rfl⟩ := h.eq_member
  have heligible : (!false && Extract.eligible (.member target name field.ty)
      (.analyze (.member target name field.ty))) = true := by
    simp [Extract.eligible, h.retrieves.closed, Expr.isLambda, Extract.isConstant,
      Extract.stripLift, Expr.ty, hty]
  have hvisit := Extract.visit_of_replaced oracle heligible
  exact ⟨_, (congrFun (congrArg ExceptT.run hvisit) s).trans
    (Extract.bind_eq_ok.mpr ⟨_, _, h.retrieves.valueOf oracle s.draws, rfl, rfl⟩)⟩

/-! ## Names of captured variables -/

/-- A single name is read as that name. -/
theorem read?_name {id : String} (hid : isIdent id = true) : read? id = some (.name id) := by
  obtain ⟨c, cs, hcs, hstart⟩ := isIdent_cons hid
  have hne : ∀ d, isNameStart d = false → c ≠ d := by
    rintro d hd rfl
    exact absurd hstart (by simp [hd])
  have hlambda (n : Nat) : readLambda? n (id.toList ++ []) = none := by
    refine readLambda?_eq_none (fun params more hparams => ?_) n
    rw [readParams?_name hid ends_nil.name] at hparams
    cases hparams
    rfl
  have hprimary := readPrimary?_name hid ends_nil.name (8 * id.toList.length + 5)
  rw [hcs, List.cons_append, ← hcs] at hprimary
  have hunary := reads_primary (hne _ rfl) (hne _ rfl) ends_nil.follows hprimary
  rw [← List.cons_append, ← hcs] at hunary
  obtain ⟨more, hread, hmore⟩ := reads_operand (hlambda _) hunary ends_nil
  rw [List.append_nil] at hread
  have hblank := skipBlanks_ident hid []
  rw [List.append_nil] at hblank
  rw [read?, hblank, hread]
  exact if_pos hmore

section Captured

variable {env : Env} {c : Closure} {id : String}

theorem resolve?_of_unbound {scope : List Binder} (hscope : ∀ p ∈ scope, p.name ≠ id)
    (hc : env.captured = some c) (hset : env.names.entitySet id = none) :
    env.resolve? scope id = capture? id (.const (.closure c.className c.captures))
      (.closure c.className c.captures) := by
  have hfind : (scope.find? fun p => p.name == id) = none := by
    simpa using hscope
  simp only [Env.resolve?, hfind, hset, hc, Option.bind_some]

/-- A name that is neither a parameter nor an entity set is a variable of a scope that is reached
from the captured one, if there is such a variable. It has the declared type and the value of the
first one, depth first. -/
theorem captured_of_parse (hc : env.captured = some c)
    (hnames : ∀ d, c.Reaches d → (d.captures.map Capture.name).Nodup)
    (hid : isIdent id = true) (hset : env.names.entitySet id = none) :
    (∀ scope seeds, (∀ p ∈ scope, p.name ≠ id) →
      build env scope seeds (.name id) = parse env id) ∧
    ((∃ e, parse env id = .ok e) ↔ ∃ d, c.Reaches d ∧ ∃ field ∈ d.captures, field.name = id) ∧
    ∀ e, parse env id = .ok e → ∃ field, Capture.find? id c.variables = some field ∧
      e.ty = field.ty ∧ (∀ outer, Eval.evaluate outer e = pure field.value) ∧
      (field.ty.isQueryable = false → ∀ oracle s, ∃ placeholder, (extract oracle e).run s =
        (.ok (Extract.placeholderNode placeholder field.value field.ty),
          ⟨s.params.add placeholder field.value, s.draws⟩)) := by
  have hscopes : ∀ captures ∈ (Value.closure c.className c.captures).scopes,
      (captures.map Capture.name).Nodup := by
    intro captures hcaptures
    obtain ⟨⟨_, _⟩, d, hd, hreaches, rfl⟩ := exists_reaches_of_mem_scopes hcaptures
    obtain ⟨rfl, rfl⟩ := Value.closure.inj hd
    exact hnames d hreaches
  have hrel : Option.Rel (ReadsField id) _ (Capture.find? id c.variables) :=
    rel_capture? (retrieves_closure c) hscopes
  have hparse : parse env id = build env [] [] (.name id) := by rw [parse, read?_name hid]
  have hfound : (∃ d, c.Reaches d ∧ ∃ field ∈ d.captures, field.name = id) ↔
      (Capture.find? id c.variables).isSome := by
    rw [Capture.find?_isSome_iff]
    constructor
    · rintro ⟨d, hreaches, field, hfield, hname⟩
      exact ⟨field, Closure.mem_variables.mpr ⟨d, hreaches, hfield⟩, hname⟩
    · rintro ⟨field, hfield, hname⟩
      obtain ⟨d, hreaches, hfield⟩ := Closure.mem_variables.mp hfield
      exact ⟨d, hreaches, field, hfield, hname⟩
  have hempty : env.resolve? [] id = _ := resolve?_of_unbound nofun hc hset
  refine ⟨fun scope seeds hscope => ?_, ?_⟩
  · rw [hparse, build, build, resolve?_of_unbound hscope hc hset, hempty]
  rw [hfound, hparse, build, hempty]
  generalize capture? id _ _ = found, Capture.find? id c.variables = first at hrel ⊢
  cases hrel with
  | none => simp
  | @some e field h =>
      refine ⟨by simp, fun e' he' => ?_⟩
      cases he'
      refine ⟨field, rfl, ?_, fun outer => h.retrieves.value outer [], fun hty => h.extract hty⟩
      obtain ⟨target, rfl⟩ := h.eq_member
      rfl

/-- A scope with two nested ones, of which the second one and a scope in it hold one name, beside a
variable whose scope a query could spell. -/
def display : Closure :=
  let minor : Value := .closure "C3" [⟨"min", .string, .string "minor"⟩]
  let inner : Value :=
    .closure "C2" [⟨"<>8__locals3", .closure "C3", minor⟩, ⟨"min", .int, .int 18⟩]
  ⟨"C0", [⟨"locals", .closure "C3", minor⟩,
    ⟨"<>8__locals1", .closure "C1", .closure "C1" [⟨"max", .int, .int 65⟩]⟩,
    ⟨"<>8__locals2", .closure "C2", inner⟩]⟩

/-- The first nested scope that holds the variable counts, before those that are nested in it. -/
theorem captured_display :
    let env : Env := ⟨⟨fun _ _ => none, fun _ => none⟩, some display⟩
    (∀ d, display.Reaches d → (d.captures.map Capture.name).Nodup) ∧ isIdent "min" = true ∧
      env.names.entitySet "min" = none ∧ (Ty.int).isQueryable = false ∧
      ∃ e, parse env "min" = .ok e ∧ e.text = "value(C0).<>8__locals2.min" ∧ e.ty = .int ∧
        (∀ outer, Eval.evaluate outer e = pure (.int 18)) ∧
        ∀ oracle s, ∃ placeholder, (extract oracle e).run s =
          (.ok (.parameter placeholder .int), ⟨s.params.add placeholder (.int 18), s.draws⟩) := by
  intro env
  have hscopes : ∀ captures ∈ (Value.closure display.className display.captures).scopes,
      (captures.map Capture.name).Nodup := by decide
  have hnames : ∀ d, display.Reaches d → (d.captures.map Capture.name).Nodup :=
    fun d hreaches => hscopes _ hreaches.mem_scopes
  refine ⟨hnames, by decide, rfl, rfl, _, rfl, by decide, ?_⟩
  obtain ⟨-, -, hfirst⟩ := @captured_of_parse env display "min" rfl hnames (by decide) rfl
  obtain ⟨field, hfield, hty, hvalue, hextract⟩ := hfirst _ rfl
  cases hfield
  exact ⟨hty, hvalue, hextract rfl⟩

end Captured

end QueryText

end DeferredQuery
