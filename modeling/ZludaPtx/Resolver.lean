import ZludaPtx.Ast
import ZludaPtx.ForStd.StateT
import ZludaPtx.ForStd.List

/-!
# The scoped resolver

`normalize_identifiers2.rs` interns every symbol through a `ScopedResolver` over a
`GlobalStringIdentResolver2`; neither is among the modelled sources, so both are modelled from
the spec (§4.1, §4.2).  The identifier table is append-only and keyed by consecutive integers
from 1; the resolver is a stack of scopes, each mapping source names to identifiers.

The stack is kept as its innermost scope `current` and the scopes `outer` around it, so there is
always a current scope to declare into.  The structure carries the counter's invariant: every
identifier in the table or in a scope was handed out before, that is, lies below `currentId`.

Each operation is a `ResolverM` action, and has one spec lemma (`add_eq_ok`, `get_eq_ok`, ...)
that later proofs cite instead of unfolding it.
-/

namespace ZludaPtx

/-- An identifier-table entry (§4.1): an optional source name and, for variables, the declared
    type and state space. -/
structure IdentEntry where
  name : Option String
  typeSpace : Option (PtxType × StateSpace)
  deriving DecidableEq

/-- A scope: bindings from source names to identifiers, the newest first. -/
abbrev Scope := List (String × SpirvWord)

/-- The identifier the innermost scope of `scopes` that binds `name` gives it. -/
def resolveIn : List Scope → String → Option SpirvWord
  | [], _ => none
  | s :: ss, name =>
    match s.lookup name with
    | some id => some id
    | none => resolveIn ss name

/-- The identifier `resolveIn` finds, `0` when no scope binds the name. -/
def resolvedIn (scopes : List Scope) (name : String) : SpirvWord := (resolveIn scopes name).getD 0

/-- A scope binds `name` exactly when `name` is among its bound names. -/
theorem Scope.lookup_eq_none_iff {s : Scope} {name : String} :
    s.lookup name = none ↔ name ∉ s.map Prod.fst := by
  simp only [List.lookup_eq_none_iff, bne_iff_ne, ne_eq, List.mem_map, not_exists, not_and]
  exact ⟨fun h p hp he => h p hp he.symm, fun h p hp he => h p hp he.symm⟩

/-- A binding pushed in front of a scope hides only its own name. -/
theorem Scope.lookup_cons_eq_none {s : Scope} {n m : String} {i : SpirvWord} :
    ((n, i) :: s).lookup m = none ↔ m ≠ n ∧ s.lookup m = none := by
  simp only [List.lookup_cons]
  split <;> simp_all

/-- Some scope of the stack binds `name` exactly when `resolveIn` finds it. -/
theorem resolveIn_isSome_iff {scopes : List Scope} {name : String} :
    (resolveIn scopes name).isSome ↔ ∃ s ∈ scopes, name ∈ s.map Prod.fst := by
  induction scopes with
  | nil => simp [resolveIn]
  | cons s ss ih =>
    simp only [resolveIn, List.mem_cons, exists_eq_or_imp]
    cases h : s.lookup name with
    | some _ =>
      have hmem : name ∈ s.map Prod.fst := by
        by_contra hn
        rw [Scope.lookup_eq_none_iff.mpr hn] at h
        cases h
      simp [h, hmem]
    | none => simp [ih, Scope.lookup_eq_none_iff.mp h]

/-- Binding a name the scope does not bind keeps every lookup that succeeded. -/
theorem Scope.lookup_cons_of_eq_some {s : Scope} {n t : String} {i j : SpirvWord}
    (hn : s.lookup n = none) (ht : s.lookup t = some i) : ((n, j) :: s).lookup t = some i := by
  have hne : t ≠ n := by rintro rfl; rw [hn] at ht; cases ht
  simp only [List.lookup_cons, beq_false_of_ne hne, ht]

/-- Bindings pushed in front of a scope that do not bind `name` leave its lookup alone. -/
theorem Scope.lookup_append_of_eq_none {s t : Scope} {name : String} (h : s.lookup name = none) :
    (s ++ t).lookup name = t.lookup name := by
  simp [List.lookup_append, h]

/-- Modelled from the spec: `ScopedResolver` with its `GlobalStringIdentResolver2` (§4.1–4.2).
    `currentId` is the next identifier to hand out, `identMap` the identifier table (newest
    entry first), `current :: outer` the scope stack (innermost first). -/
@[ext]
structure ScopedResolver where
  currentId : SpirvWord
  identMap : List (SpirvWord × IdentEntry)
  current : Scope
  outer : List Scope
  identMap_lt : ∀ e ∈ identMap, e.1 < currentId
  scopes_lt : ∀ s ∈ current :: outer, ∀ b ∈ s, b.2 < currentId

/-- The normalize pass's monad: it threads the resolver, and fails with a `TranslateError`. -/
abbrev ResolverM := StateT ScopedResolver (Except TranslateError)

namespace ScopedResolver

/-- Modelled from the spec: a fresh resolver, with an empty table whose first identifier is 1
    and one empty scope. -/
def new : ScopedResolver where
  currentId := 1
  identMap := []
  current := []
  outer := []
  identMap_lt := by simp
  scopes_lt := by simp

/-- The scope stack, innermost first. -/
def scopes (r : ScopedResolver) : List Scope := r.current :: r.outer

/-- The resolver with an empty scope pushed. -/
def pushScope (r : ScopedResolver) : ScopedResolver where
  currentId := r.currentId
  identMap := r.identMap
  current := []
  outer := r.current :: r.outer
  identMap_lt := r.identMap_lt
  scopes_lt := fun s hs => by
    rcases List.mem_cons.mp hs with rfl | hs
    · simp
    · exact r.scopes_lt s hs

/-- The resolver with its current scope dropped for `s :: ss`, the scopes below it. -/
def popScope (r : ScopedResolver) (s : Scope) (ss : List Scope) (h : r.outer = s :: ss) :
    ScopedResolver where
  currentId := r.currentId
  identMap := r.identMap
  current := s
  outer := ss
  identMap_lt := r.identMap_lt
  scopes_lt := fun t ht => r.scopes_lt t (by rw [h] at *; exact List.mem_cons_of_mem _ ht)

/-- The resolver after handing out `currentId` to `name` in the current scope, recording its
    descriptor. -/
def bind (r : ScopedResolver) (name : String) (typeSpace : Option (PtxType × StateSpace)) :
    ScopedResolver where
  currentId := r.currentId + 1
  identMap := (r.currentId, ⟨some name, typeSpace⟩) :: r.identMap
  current := (name, r.currentId) :: r.current
  outer := r.outer
  identMap_lt := fun e he => by
    rcases List.mem_cons.mp he with rfl | he
    · simp
    · exact Nat.lt_succ_of_lt (r.identMap_lt e he)
  scopes_lt := fun s hs b hb => by
    rcases List.mem_cons.mp hs with rfl | hs
    · rcases List.mem_cons.mp hb with rfl | hb
      · simp
      · exact Nat.lt_succ_of_lt (r.scopes_lt _ (List.mem_cons_self _ _) b hb)
    · exact Nat.lt_succ_of_lt (r.scopes_lt s (List.mem_cons_of_mem _ hs) b hb)

@[simp] theorem pushScope_currentId (r : ScopedResolver) : r.pushScope.currentId = r.currentId :=
  rfl
@[simp] theorem pushScope_identMap (r : ScopedResolver) : r.pushScope.identMap = r.identMap := rfl
@[simp] theorem pushScope_current (r : ScopedResolver) : r.pushScope.current = [] := rfl
@[simp] theorem pushScope_outer (r : ScopedResolver) :
    r.pushScope.outer = r.current :: r.outer := rfl

@[simp] theorem popScope_currentId (r : ScopedResolver) (s ss h) :
    (r.popScope s ss h).currentId = r.currentId := rfl
@[simp] theorem popScope_identMap (r : ScopedResolver) (s ss h) :
    (r.popScope s ss h).identMap = r.identMap := rfl
@[simp] theorem popScope_current (r : ScopedResolver) (s ss h) :
    (r.popScope s ss h).current = s := rfl
@[simp] theorem popScope_outer (r : ScopedResolver) (s ss h) :
    (r.popScope s ss h).outer = ss := rfl

@[simp] theorem bind_currentId (r : ScopedResolver) (n ts) :
    (r.bind n ts).currentId = r.currentId + 1 := rfl
@[simp] theorem bind_identMap (r : ScopedResolver) (n ts) :
    (r.bind n ts).identMap = (r.currentId, ⟨some n, ts⟩) :: r.identMap := rfl
@[simp] theorem bind_current (r : ScopedResolver) (n ts) :
    (r.bind n ts).current = (n, r.currentId) :: r.current := rfl
@[simp] theorem bind_outer (r : ScopedResolver) (n ts) : (r.bind n ts).outer = r.outer := rfl

/-- The resolver after binding the names of `entries` one after another, each with its
    descriptor type. -/
def bindAll (r : ScopedResolver) (entries : List (String × Option (PtxType × StateSpace))) :
    ScopedResolver :=
  entries.foldl (fun r e => r.bind e.1 e.2) r

@[simp] theorem bindAll_nil (r : ScopedResolver) : r.bindAll [] = r := rfl
@[simp] theorem bindAll_cons (r : ScopedResolver) (e es) :
    r.bindAll (e :: es) = (r.bind e.1 e.2).bindAll es := rfl

@[simp] theorem bindAll_currentId (r : ScopedResolver) (es) :
    (r.bindAll es).currentId = r.currentId + es.length := by
  induction es generalizing r <;> simp_all [Nat.add_assoc, Nat.add_comm 1]

@[simp] theorem bindAll_outer (r : ScopedResolver) (es) : (r.bindAll es).outer = r.outer := by
  induction es generalizing r <;> simp_all

theorem bindAll_append (r : ScopedResolver) (es es') :
    r.bindAll (es ++ es') = (r.bindAll es).bindAll es' :=
  List.foldl_append ..

/-- Binding names one after another pushes them, each with the next identifier, on the
    current scope. -/
theorem bindAll_current (r : ScopedResolver) (es) :
    (r.bindAll es).current =
      ((es.map Prod.fst).zip (List.range' r.currentId es.length)).reverse ++ r.current := by
  induction es generalizing r <;> simp_all [List.range'_succ]

/-- After binding `es`, a name is unbound in the current scope exactly when it is not among
    them and was unbound before. -/
theorem bindAll_current_lookup_eq_none (r : ScopedResolver) (es) (n : String) :
    (r.bindAll es).current.lookup n = none ↔
      n ∉ es.map Prod.fst ∧ r.current.lookup n = none := by
  simp only [bindAll_current, Scope.lookup_eq_none_iff, List.map_append, List.map_reverse,
    List.mem_append, List.mem_reverse, not_or]
  rw [List.map_fst_zip _ _ (by simp)]

/-- Every name bound by `bindAll` is bound in the current scope after it. -/
theorem bindAll_mem_current (r : ScopedResolver) (es) {n : String} (h : n ∈ es.map Prod.fst) :
    n ∈ (r.bindAll es).current.map Prod.fst := by
  by_contra hn
  exact ((bindAll_current_lookup_eq_none r es n).mp (Scope.lookup_eq_none_iff.mpr hn)).1 h

/-- Binding names one after another records their descriptors under consecutive identifiers. -/
theorem bindAll_identMap (r : ScopedResolver) (es) :
    (r.bindAll es).identMap =
      ((List.range' r.currentId es.length).zip (es.map fun e => IdentEntry.mk (some e.1) e.2)).reverse
        ++ r.identMap := by
  induction es generalizing r <;> simp_all [List.range'_succ]

/-- `start_scope`: push an empty scope. -/
def startScope : ResolverM Unit := fun r => .ok ((), r.pushScope)

/-- `end_scope`: pop the current scope, keeping the identifier table.  Popping the only scope is
    a fault of the caller. -/
def endScope : ResolverM Unit := fun r =>
  match h : r.outer with
  | [] => .error .aborted
  | s :: ss => .ok ((), r.popScope s ss h)

/-- `add`: introduce `name` in the current scope under a fresh identifier, failing if the
    current scope already binds it.  The spec names no error kind for the duplicate; the model
    reports `unreachable`. -/
def add (name : String) (typeSpace : Option (PtxType × StateSpace)) : ResolverM SpirvWord :=
  fun r =>
    match r.current.lookup name with
    | some _ => .error .unreachable
    | none => .ok (r.currentId, r.bind name typeSpace)

/-- `add_or_get_in_current_scope_untyped`: as `add` without a type, but an existing binding of
    `name` in the current scope is returned instead of failing. -/
def addOrGetInCurrentScopeUntyped (name : String) : ResolverM SpirvWord := fun r =>
  match r.current.lookup name with
  | some id => .ok (id, r)
  | none => .ok (r.currentId, r.bind name none)

/-- `get`: the identifier the innermost scope binding `name` gives it. -/
def get (name : String) : ResolverM SpirvWord := fun r =>
  match resolveIn r.scopes name with
  | some id => .ok (id, r)
  | none => .error .unreachable

/-- `get_in_current_scope`: the identifier the current scope gives `name`. -/
def getInCurrentScope (name : String) : ResolverM SpirvWord := fun r =>
  match r.current.lookup name with
  | some id => .ok (id, r)
  | none => .error .unreachable

/-! ## Spec lemmas -/

variable {r r' : ScopedResolver} {i : SpirvWord} {name : String}

/-- A name the current scope binds is found by `get`. -/
theorem resolveIn_isSome_of_mem_current (h : name ∈ r.current.map Prod.fst) :
    (resolveIn r.scopes name).isSome :=
  resolveIn_isSome_iff.mpr ⟨_, List.mem_cons_self _ _, h⟩

theorem startScope_apply (r : ScopedResolver) : startScope r = .ok ((), r.pushScope) := rfl

theorem endScope_eq_ok {u : Unit} :
    endScope r = .ok (u, r') ↔ ∃ s ss, ∃ h : r.outer = s :: ss, r' = r.popScope s ss h := by
  unfold endScope
  split
  · rename_i h; simp [h]
  · rename_i s ss h
    simp only [Except.ok.injEq, Prod.mk.injEq, true_and]
    constructor
    · rintro rfl; exact ⟨s, ss, h, rfl⟩
    · rintro ⟨_, _, h', rfl⟩
      obtain ⟨rfl, rfl⟩ := List.cons.inj (h.symm.trans h')
      rfl

theorem add_eq_ok {ts} :
    add name ts r = .ok (i, r') ↔
      r.current.lookup name = none ∧ i = r.currentId ∧ r' = r.bind name ts := by
  unfold add
  split
  · rename_i h; simp [h]
  · rename_i h
    simp only [Except.ok.injEq, Prod.mk.injEq, h, true_and, @eq_comm _ i, @eq_comm _ r']

theorem addOrGetInCurrentScopeUntyped_eq_ok :
    addOrGetInCurrentScopeUntyped name r = .ok (i, r') ↔
      (r.current.lookup name = some i ∧ r' = r) ∨
      (r.current.lookup name = none ∧ i = r.currentId ∧ r' = r.bind name none) := by
  unfold addOrGetInCurrentScopeUntyped
  split
  · rename_i j h
    simp only [Except.ok.injEq, Prod.mk.injEq, h, Option.some.injEq, reduceCtorEq, false_and,
      or_false, @eq_comm _ j, @eq_comm _ r]
  · rename_i h
    simp only [Except.ok.injEq, Prod.mk.injEq, h, reduceCtorEq, false_and, true_and, false_or,
      @eq_comm _ i, @eq_comm _ r']

/-- The identifier `get` finds for `name` (`0` when there is none). -/
def resolved (r : ScopedResolver) (name : String) : SpirvWord := resolvedIn r.scopes name

theorem get_eq_ok : get name r = .ok (i, r') ↔ resolveIn r.scopes name = some i ∧ r' = r := by
  unfold get
  split
  · rename_i j h
    simp only [Except.ok.injEq, Prod.mk.injEq, h, Option.some.injEq, @eq_comm _ j, @eq_comm _ r]
  · rename_i h; simp [h]

theorem get_eq_ok_iff_resolved :
    get name r = .ok (i, r') ↔ r' = r ∧ (resolveIn r.scopes name).isSome ∧ i = r.resolved name := by
  rw [get_eq_ok, resolved, resolvedIn]
  cases resolveIn r.scopes name <;> simp [eq_comm, and_comm]

theorem getInCurrentScope_eq_ok :
    getInCurrentScope name r = .ok (i, r') ↔ r.current.lookup name = some i ∧ r' = r := by
  unfold getInCurrentScope
  split
  · rename_i j h
    simp only [Except.ok.injEq, Prod.mk.injEq, h, Option.some.injEq, @eq_comm _ j, @eq_comm _ r]
  · rename_i h; simp [h]

end ScopedResolver

/-! ## Allocation

Every identifier the normalize pass hands out comes from `bind`, so a run of the pass appends a
block of consecutive identifiers to the table.  `Allocated r r' ds` says that `r'` is `r` after
handing out the identifiers of `ds` in order, each recorded with its entry; the pass's
soundness proofs build it statement by statement with `Allocated.trans`.
-/

/-- `r'` is `r` after handing out the identifiers of `ds`, in order, from `r.currentId` on, each
    recorded in the table with its entry. -/
structure Allocated (r r' : ScopedResolver) (ds : List (SpirvWord × IdentEntry)) : Prop where
  identMap_eq : r'.identMap = ds.reverse ++ r.identMap
  ids_eq : ds.map Prod.fst = List.range' r.currentId ds.length
  currentId_eq : r'.currentId = r.currentId + ds.length

namespace Allocated

variable {r r₁ r' : ScopedResolver} {ds ds' : List (SpirvWord × IdentEntry)}

theorem nil (hm : r'.identMap = r.identMap) (hc : r'.currentId = r.currentId) : Allocated r r' [] :=
  ⟨by simp [hm], rfl, by simp [hc]⟩

theorem trans (h₁ : Allocated r r₁ ds) (h₂ : Allocated r₁ r' ds') : Allocated r r' (ds ++ ds') where
  identMap_eq := by rw [h₂.identMap_eq, h₁.identMap_eq, List.reverse_append, List.append_assoc]
  ids_eq := by
    rw [List.map_append, h₁.ids_eq, h₂.ids_eq, h₁.currentId_eq, List.range'_append_1,
      List.length_append, Nat.add_comm ds'.length]
  currentId_eq := by rw [h₂.currentId_eq, h₁.currentId_eq, List.length_append, Nat.add_assoc]

/-- Binding a name hands out the next identifier. -/
theorem bind (r : ScopedResolver) (n : String) (ts : Option (PtxType × StateSpace)) :
    Allocated r (r.bind n ts) [(r.currentId, ⟨some n, ts⟩)] :=
  ⟨rfl, rfl, rfl⟩

/-- Binding names one after another hands out consecutive identifiers. -/
theorem bindAll (r : ScopedResolver) (es : List (String × Option (PtxType × StateSpace))) :
    Allocated r (r.bindAll es)
      ((List.range' r.currentId es.length).zip (es.map fun e => ⟨some e.1, e.2⟩)) where
  identMap_eq := ScopedResolver.bindAll_identMap r es
  ids_eq := by rw [List.map_fst_zip _ _ (by simp)]; simp
  currentId_eq := by simp

/-- The identifiers handed out are new: none was in the table or a scope before. -/
theorem le_of_mem (h : Allocated r r' ds) {d} (hd : d ∈ ds) :
    r.currentId ≤ d.1 ∧ d.1 < r'.currentId := by
  have : d.1 ∈ ds.map Prod.fst := List.mem_map_of_mem _ hd
  rw [h.ids_eq, List.mem_range'_1] at this
  rw [h.currentId_eq]
  exact this

/-- After the allocation, the table describes each identifier handed out by its entry. -/
theorem lookup_eq (h : Allocated r r' ds) {d} (hd : d ∈ ds) : r'.identMap.lookup d.1 = some d.2 := by
  have hold : r.identMap.lookup d.1 = none := by
    refine List.lookup_eq_none_iff.mpr fun e he => bne_iff_ne.mpr ?_
    exact Nat.ne_of_gt (Nat.lt_of_lt_of_le (r.identMap_lt e he) (h.le_of_mem hd).1)
  have hnd : (ds.reverse.map Prod.fst).Nodup := by
    rw [List.map_reverse, List.nodup_reverse, h.ids_eq]
    exact List.nodup_range' _ _
  rw [h.identMap_eq, List.lookup_append, List.lookup_of_mem_of_nodup hnd (List.mem_reverse.mpr hd)]
  rfl

end Allocated

end ZludaPtx
