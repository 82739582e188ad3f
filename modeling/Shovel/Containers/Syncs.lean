import Shovel.Containers.Decorators

/-!
# The synchronisation objects of a stack

Every constructor of a decorator makes a mutex and two condition variables and
hands them to the decorator it wraps through `set_syncs`, which stores them in
that one object. The objects are known here by the number of their allocation.
`allSyncs_build` lists what the layers of a stack hold once its outermost
decorator is constructed: the two outermost layers share the newest objects, and
every deeper layer keeps what its wrapper was born with.
-/

namespace Shovel.Containers

/-- A mutex or a condition variable, known by the number of the `make_shared` that made it. -/
abbrev ObjectId := Nat

/-- The members `m_mutex`, `m_condition_full` and `m_condition_empty` of a constructed decorator. -/
structure Syncs where
  mutex : ObjectId
  conditionFull : ObjectId
  conditionEmpty : ObjectId
  deriving DecidableEq, Repr

/-- A queue object: a decorator with its members, or a queue that is no decorator. -/
inductive QueueObject (Q : Type) where
  | other (q : Q)
  | decorator (kind : Decorator) (syncs : Syncs) (wrappee : QueueObject Q)

namespace QueueObject

variable {Q : Type}

/-- `if (member == nullptr) member = make_shared<...>()`. -/
def makeUnlessSet (member : Option ObjectId) (next : ObjectId) : ObjectId × ObjectId :=
  match member with
  | none => (next, next + 1)
  | some object => (object, next)

/-- `set_syncs` on the result of `dynamic_pointer_cast<RingQueueBlockBaseDecorator>`. The members
of the object itself change, and those of what it wraps do not. -/
def setSyncs (syncs : Syncs) : QueueObject Q → QueueObject Q
  | .other q => .other q
  | .decorator kind _ wrappee => .decorator kind syncs wrappee

/-- `RingQueueBlockBaseDecorator::RingQueueBlockBaseDecorator`, with the number of the next
allocation. The members of a new object are null pointers. -/
def construct (kind : Decorator) (inner : QueueObject Q) (next : ObjectId) :
    QueueObject Q × ObjectId :=
  let (mutex, next) := makeUnlessSet none next
  let (conditionFull, next) := makeUnlessSet none next
  let (conditionEmpty, next) := makeUnlessSet none next
  let syncs : Syncs := ⟨mutex, conditionFull, conditionEmpty⟩
  (.decorator kind syncs (inner.setSyncs syncs), next)

/-- A stack built from the inside out over a queue that is no decorator, the outermost decorator
first, with the number of the next allocation. -/
def build (q : Q) : List Decorator → QueueObject Q × ObjectId
  | [] => (.other q, 0)
  | kind :: inner => construct kind (build q inner).1 (build q inner).2

/-- The objects that the layers of a stack hold, the outermost layer first. -/
def allSyncs : QueueObject Q → List Syncs
  | .other _ => []
  | .decorator _ syncs wrappee => syncs :: wrappee.allSyncs

/-- The objects made by the constructor that runs after `earlier` others. -/
def freshSyncs (earlier : Nat) : Syncs := ⟨3 * earlier, 3 * earlier + 1, 3 * earlier + 2⟩

/-- Different constructors make different mutexes. -/
theorem freshSyncs_mutex_inj {earlier later : Nat} :
    (freshSyncs earlier).mutex = (freshSyncs later).mutex ↔ earlier = later := by
  show (3 * earlier : Nat) = 3 * later ↔ earlier = later
  omega

variable (q : Q) (decorators : List Decorator)

/-- Every decorator allocates three objects. -/
theorem build_next : (build q decorators).2 = 3 * decorators.length := by
  induction decorators with
  | nil => rfl
  | cons kind inner ih =>
      calc (build q inner).2 + 3 = 3 * inner.length + 3 := by rw [ih]
        _ = 3 * (kind :: inner).length := by rw [List.length_cons, Nat.mul_succ]

/-- The outermost decorator holds what it made, and has handed it to the one it wraps. -/
theorem build_cons (kind : Decorator) : (build q (kind :: decorators)).1 =
    .decorator kind (freshSyncs decorators.length)
      ((build q decorators).1.setSyncs (freshSyncs decorators.length)) := by
  show QueueObject.decorator kind ⟨(build q decorators).2, (build q decorators).2 + 1, _⟩ _ = _
  rw [build_next]
  rfl

/-- Handing new objects to a stack changes its outermost layer. -/
theorem allSyncs_setSyncs (syncs : Syncs) (object : QueueObject Q) :
    (object.setSyncs syncs).allSyncs = object.allSyncs.set 0 syncs := by
  cases object <;> rfl

theorem length_allSyncs : (build q decorators).1.allSyncs.length = decorators.length := by
  induction decorators with
  | nil => rfl
  | cons kind inner ih => simp [build_cons, allSyncs, allSyncs_setSyncs, ih]

/-- What the layers of a stack hold: the outermost layer its own objects, and every other layer
those of the layer around it. -/
theorem allSyncs_build {layer : Nat} (h : layer < decorators.length) :
    (build q decorators).1.allSyncs[layer]? =
      some (freshSyncs (decorators.length - max 1 layer)) := by
  induction decorators generalizing layer with
  | nil => simp at h
  | cons kind inner ih =>
      rw [build_cons, allSyncs, allSyncs_setSyncs, List.length_cons]
      rw [List.length_cons] at h
      match layer with
      | 0 => simp
      | 1 =>
          have hlength := length_allSyncs q inner
          rw [List.getElem?_cons_succ, List.getElem?_set_self (by omega)]
          simp
      | deeper + 2 =>
          rw [List.getElem?_cons_succ, List.getElem?_set_ne (by omega), ih (by omega)]
          congr 2
          omega

/-- Two layers hold the same mutex only if they are the two outermost ones. -/
theorem same_mutex_iff {outer deeper : Nat} {s s' : Syncs} (hlt : outer < deeper)
    (houter : (build q decorators).1.allSyncs[outer]? = some s)
    (hdeeper : (build q decorators).1.allSyncs[deeper]? = some s') :
    s.mutex = s'.mutex ↔ outer = 0 ∧ deeper = 1 := by
  obtain ⟨hlength, -⟩ := List.getElem?_eq_some_iff.mp hdeeper
  rw [length_allSyncs] at hlength
  rw [allSyncs_build q decorators (by omega)] at houter
  rw [allSyncs_build q decorators hlength] at hdeeper
  obtain rfl := Option.some.inj houter
  obtain rfl := Option.some.inj hdeeper
  rw [freshSyncs_mutex_inj]
  omega

/-- A call locks a mutex twice exactly when two layers that lock for it hold the same one. -/
theorem locksTwice_iff (locks : Decorator → Bool) (ring : RingQueue) :
    (QueueStack.decorate decorators ring).locksTwice locks = true ↔
      ∃ (outer deeper : Nat) (d d' : Decorator) (s s' : Syncs), outer < deeper ∧
        decorators[outer]? = some d ∧ decorators[deeper]? = some d' ∧
        (build q decorators).1.allSyncs[outer]? = some s ∧
        (build q decorators).1.allSyncs[deeper]? = some s' ∧
        locks d = true ∧ locks d' = true ∧ s.mutex = s'.mutex := by
  constructor
  · intro htwice
    match decorators, htwice with
    | d :: d' :: rest, htwice =>
        obtain ⟨houter, hdeeper⟩ := Bool.and_eq_true_iff.mp htwice
        have h0 := allSyncs_build q (d :: d' :: rest) (Nat.zero_lt_succ _)
        have h1 := allSyncs_build q (d :: d' :: rest) (Nat.one_lt_succ_succ _)
        exact ⟨0, 1, d, d', _, _, Nat.zero_lt_one, rfl, rfl, h0, h1, houter, hdeeper, rfl⟩
  · rintro ⟨outer, deeper, d, d', s, s', hlt, hd, hd', hs, hs', hlocks, hlocks', hmutex⟩
    obtain ⟨rfl, rfl⟩ := (same_mutex_iff q decorators hlt hs hs').mp hmutex
    match decorators, hd, hd' with
    | first :: second :: rest, hd, hd' =>
        obtain rfl := Option.some.inj hd
        obtain rfl := Option.some.inj hd'
        exact Bool.and_eq_true_iff.mpr ⟨hlocks, hlocks'⟩

/-- All layers hold the same three objects, those of the outermost layer. -/
def HoldsOneSet (object : QueueObject Q) : Prop :=
  ∃ own, object.allSyncs.head? = some own ∧ ∀ s ∈ object.allSyncs, s = own

/-- All layers of a stack of decorators hold one set of objects exactly when there are at most two
layers. -/
theorem build_holdsOneSet_iff (kind : Decorator) (inner : List Decorator) :
    (build q (kind :: inner)).1.HoldsOneSet ↔ (kind :: inner).length ≤ 2 := by
  have hfirst := allSyncs_build q (kind :: inner) (Nat.zero_lt_succ inner.length)
  constructor
  · rintro ⟨own, hown, hall⟩
    by_contra hmore
    have hlong : 2 < (kind :: inner).length := Nat.lt_of_not_le hmore
    have hthird := allSyncs_build q (kind :: inner) hlong
    rw [List.head?_eq_getElem?] at hown
    have hmutex : (freshSyncs ((kind :: inner).length - max 1 2)).mutex = own.mutex := by
      rw [hall _ (List.mem_of_getElem? hthird)]
    have hpair := (same_mutex_iff q (kind :: inner) (by omega) hown hthird).mp hmutex.symm
    omega
  · intro hshort
    refine ⟨_, by rw [List.head?_eq_getElem?, hfirst], fun s hs => ?_⟩
    obtain ⟨layer, hlayer⟩ := List.mem_iff_getElem?.mp hs
    obtain ⟨hlt, -⟩ := List.getElem?_eq_some_iff.mp hlayer
    rw [length_allSyncs] at hlt
    rw [allSyncs_build q (kind :: inner) hlt] at hlayer
    obtain rfl := Option.some.inj hlayer
    congr 1
    omega

/-- Three decorators over a queue: the innermost keeps the mutex that the middle one made. -/
theorem build_three_differ :
    ¬ (build () [.noBlockRead, .blockRead, .blockWrite]).1.HoldsOneSet := by
  rintro ⟨own, hown, hall⟩
  obtain rfl := Option.some.inj hown
  have hinner := hall (freshSyncs 1) (by decide)
  exact absurd hinner (by decide)

end QueueObject

end Shovel.Containers
