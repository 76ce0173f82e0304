import Letterpress.Package.Ids
import Letterpress.Proofs.Number.Decimal

/-!
# Ids are issued once

An id is reserved if whatever its space issues next is greater. No call lifts a reservation, and a
call that issues or meets an id reserves it, so nothing that has been issued or met comes again.
What a call does is said once, in `Ids.call_cases`; the rest follows for whole rows of calls.
-/

namespace Letterpress

theorem relationshipNumber?_relationshipId (n : UInt32) :
    relationshipNumber? (relationshipId n) = some n := by
  have hchars : (relationshipId n).toList = 'r' :: 'I' :: 'd' :: (Number.showUInt32 n).toList := by
    simp [relationshipId]
  rw [relationshipNumber?, hchars]
  exact Number.uint32?_showUInt32 n

theorem nextId_eq_none {id : UInt32} : nextId id = none ↔ id = 4294967295 := by
  simp [nextId]

theorem lt_of_mem_nextId {id next : UInt32} (h : next ∈ nextId id) : id < next := by
  unfold nextId at h
  split at h
  · cases h
  · next hne =>
    cases h
    exact UInt32.lt_add_one hne

namespace Ids

variable {ids : Ids} {space other : IdSpace} {n id next : UInt32}

theorem peek_observe_self (ids : Ids) (space : IdSpace) (id : UInt32) :
    (ids.observe space id).peek space =
      (ids.peek space).bind fun next => if next ≤ id then nextId id else some next := by
  unfold observe
  cases h : ids.peek space with
  | none => exact h
  | some next => by_cases hle : next ≤ id <;> simp [hle, h]

theorem peek_observe_of_ne (ids : Ids) (id : UInt32) (h : other ≠ space) :
    (ids.observe space id).peek other = ids.peek other := by
  unfold observe
  split
  · rfl
  · split
    · exact peek_set_of_ne ids _ h
    · rfl

/-- Whether the ids of a space that are issued are greater. -/
def Reserves (ids : Ids) (space : IdSpace) (n : UInt32) : Prop := ∀ next ∈ ids.peek space, n < next

theorem Reserves.set (h : ids.Reserves space n) (hid : ids.peek other = some id) :
    (ids.set other (nextId id)).Reserves space n := by
  intro next hnext
  by_cases hspace : space = other
  · subst hspace
    rw [peek_set_self] at hnext
    exact UInt32.lt_trans (h id hid) (lt_of_mem_nextId hnext)
  · rw [peek_set_of_ne ids _ hspace] at hnext
    exact h next hnext

theorem reserves_set (ids : Ids) (space : IdSpace) (id : UInt32) :
    (ids.set space (nextId id)).Reserves space id := by
  intro next hnext
  rw [peek_set_self] at hnext
  exact lt_of_mem_nextId hnext

theorem Reserves.observe (h : ids.Reserves space n) (other : IdSpace) (id : UInt32) :
    (ids.observe other id).Reserves space n := by
  intro next hnext
  by_cases hspace : space = other
  · subst hspace
    rw [peek_observe_self] at hnext
    obtain ⟨current, hcurrent, hnext⟩ := Option.bind_eq_some_iff.mp hnext
    split at hnext
    · next hle =>
      have hid : n < id := UInt32.lt_of_lt_of_le (h current hcurrent) hle
      exact UInt32.lt_trans hid (lt_of_mem_nextId hnext)
    · rw [← Option.some.inj hnext]
      exact h current hcurrent
  · rw [peek_observe_of_ne ids id hspace] at hnext
    exact h next hnext

theorem reserves_observe (ids : Ids) (space : IdSpace) (id : UInt32) :
    (ids.observe space id).Reserves space id := by
  intro next hnext
  rw [peek_observe_self] at hnext
  obtain ⟨current, -, hnext⟩ := Option.bind_eq_some_iff.mp hnext
  split at hnext
  · exact lt_of_mem_nextId hnext
  · next hle =>
    cases hnext
    exact UInt32.not_le.mp hle

end Ids

/-! ### Calls -/

inductive IdCall where
  | issue (space : IdSpace)
  | observe (space : IdSpace) (id : UInt32)
  | issueRelationship
  | observeRelationship (id : String)

def IdCall.space : IdCall → IdSpace
  | issue space => space
  | observe space _ => space
  | issueRelationship => .relationship
  | observeRelationship _ => .relationship

/-- What comes of a call. -/
inductive IdEvent where
  | issued (space : IdSpace) (id : UInt32)
  | met (space : IdSpace) (id : UInt32)
  | issuedRelationship (id : String)
  | metRelationship (id : String)
  | refused (space : IdSpace)

namespace IdEvent

def space : IdEvent → IdSpace
  | issued space _ => space
  | met space _ => space
  | issuedRelationship _ => .relationship
  | metRelationship _ => .relationship
  | refused space => space

/-- The id that is issued. -/
def issued? : IdEvent → Option UInt32
  | issued _ id => some id
  | issuedRelationship id => relationshipNumber? id
  | _ => none

/-- The id that is issued or met. -/
def used? : IdEvent → Option UInt32
  | issued _ id => some id
  | met _ id => some id
  | issuedRelationship id => relationshipNumber? id
  | metRelationship id => relationshipNumber? id
  | refused _ => none

end IdEvent

namespace Ids

def call (ids : Ids) : IdCall → IdEvent × Ids
  | .issue space =>
    match ids.issue? space with
    | some (id, ids) => (.issued space id, ids)
    | none => (.refused space, ids)
  | .observe space id => (.met space id, ids.observe space id)
  | .issueRelationship =>
    match ids.issueRelationship? with
    | some (id, ids) => (.issuedRelationship id, ids)
    | none => (.refused .relationship, ids)
  | .observeRelationship id => (.metRelationship id, ids.observeRelationship id)

/-- What comes of calls in a row. -/
def history (ids : Ids) : List IdCall → List IdEvent
  | [] => []
  | c :: rest => (ids.call c).1 :: history (ids.call c).2 rest

def after (ids : Ids) : List IdCall → Ids
  | [] => ids
  | c :: rest => after (ids.call c).2 rest

variable {ids : Ids} {space : IdSpace} {m n : UInt32}

theorem call_issue (ids : Ids) (space : IdSpace) : ids.call (.issue space) =
    match ids.peek space with
    | some id => (.issued space id, ids.set space (nextId id))
    | none => (.refused space, ids) := by
  rw [call, issue?]
  cases ids.peek space <;> rfl

theorem call_issueRelationship (ids : Ids) : ids.call .issueRelationship =
    match ids.peek .relationship with
    | some id => (.issuedRelationship (relationshipId id), ids.set .relationship (nextId id))
    | none => (.refused .relationship, ids) := by
  rw [call, issueRelationship?, issue?]
  cases ids.peek .relationship <;> rfl

/-- A call issues the id that comes next in its space, or meets an id of its space, or changes
nothing. -/
theorem call_cases (ids : Ids) (c : IdCall) : (ids.call c).1.space = c.space ∧
    ((∃ id, ids.peek c.space = some id ∧ (ids.call c).1.issued? = some id ∧
        (ids.call c).1.used? = some id ∧ (ids.call c).2 = ids.set c.space (nextId id)) ∨
      (∃ id, (ids.call c).1.issued? = none ∧ (ids.call c).1.used? = some id ∧
        (ids.call c).2 = ids.observe c.space id) ∨
      ((ids.call c).1.issued? = none ∧ (ids.call c).1.used? = none ∧ (ids.call c).2 = ids)) := by
  cases c with
  | issue space =>
    rw [call_issue, IdCall.space]
    cases ids.peek space with
    | none => exact ⟨rfl, .inr (.inr ⟨rfl, rfl, rfl⟩)⟩
    | some id => exact ⟨rfl, .inl ⟨id, rfl, rfl, rfl, rfl⟩⟩
  | observe space id => exact ⟨rfl, .inr (.inl ⟨id, rfl, rfl, rfl⟩)⟩
  | issueRelationship =>
    rw [call_issueRelationship, IdCall.space]
    cases ids.peek .relationship with
    | none => exact ⟨rfl, .inr (.inr ⟨rfl, rfl, rfl⟩)⟩
    | some id =>
      have hid := relationshipNumber?_relationshipId id
      exact ⟨rfl, .inl ⟨id, rfl, hid, hid, rfl⟩⟩
  | observeRelationship id =>
    refine ⟨rfl, .inr ?_⟩
    simp only [call, observeRelationship, IdCall.space]
    cases hid : relationshipNumber? id with
    | none => exact .inr ⟨rfl, hid, rfl⟩
    | some n => exact .inl ⟨n, rfl, hid, rfl⟩

theorem peek_call_of_ne {c : IdCall} (h : space ≠ c.space) :
    (ids.call c).2.peek space = ids.peek space := by
  obtain ⟨-, ⟨id, -, -, -, hstep⟩ | ⟨id, -, -, hstep⟩ | ⟨-, -, hstep⟩⟩ := ids.call_cases c
  · rw [hstep, peek_set_of_ne ids _ h]
  · rw [hstep, peek_observe_of_ne ids _ h]
  · rw [hstep]

/-- What comes of a call hangs on its own space only. -/
theorem call_congr {ids ids' : Ids} {c : IdCall} (h : ids.peek c.space = ids'.peek c.space) :
    (ids.call c).1 = (ids'.call c).1 ∧
      (ids.call c).2.peek c.space = (ids'.call c).2.peek c.space := by
  cases c with
  | issue space =>
    simp only [IdCall.space] at h
    rw [call_issue, call_issue, IdCall.space, h]
    cases hpeek : ids'.peek space <;> simp [h, hpeek]
  | observe space id =>
    simp only [IdCall.space] at h
    simp [call, IdCall.space, peek_observe_self, h]
  | issueRelationship =>
    simp only [IdCall.space] at h
    rw [call_issueRelationship, call_issueRelationship, IdCall.space, h]
    cases hpeek : ids'.peek .relationship <;> simp [h, hpeek]
  | observeRelationship id =>
    simp only [IdCall.space] at h
    simp only [call, observeRelationship, IdCall.space]
    cases relationshipNumber? id <;> simp [peek_observe_self, h]

theorem Reserves.call (h : ids.Reserves space n) (c : IdCall) :
    (ids.call c).2.Reserves space n := by
  obtain ⟨-, ⟨id, hpeek, -, -, hstep⟩ | ⟨id, -, -, hstep⟩ | ⟨-, -, hstep⟩⟩ := ids.call_cases c
  · rw [hstep]
    exact h.set hpeek
  · rw [hstep]
    exact h.observe c.space id
  · rwa [hstep]

theorem reserves_call {c : IdCall} (h : (ids.call c).1.used? = some n) :
    (ids.call c).2.Reserves c.space n := by
  obtain ⟨-, ⟨id, -, -, hused, hstep⟩ | ⟨id, -, hused, hstep⟩ | ⟨-, hused, -⟩⟩ := ids.call_cases c
  · obtain rfl : id = n := Option.some.inj (hused.symm.trans h)
    rw [hstep]
    exact reserves_set ids c.space id
  · obtain rfl : id = n := Option.some.inj (hused.symm.trans h)
    rw [hstep]
    exact reserves_observe ids c.space id
  · rw [hused] at h
    cases h

theorem peek_of_issued {c : IdCall} (h : (ids.call c).1.issued? = some n) :
    ids.peek c.space = some n := by
  obtain ⟨-, ⟨id, hpeek, hissued, -⟩ | ⟨id, hissued, -⟩ | ⟨hissued, -⟩⟩ := ids.call_cases c
  · rw [hpeek, ← hissued, h]
  · rw [hissued] at h
    cases h
  · rw [hissued] at h
    cases h

/-- A space is exhausted by its greatest id, and stays so. -/
theorem peek_call_eq_none (ids : Ids) (c : IdCall) : (ids.call c).2.peek c.space = none ↔
    ids.peek c.space = none ∨ (ids.call c).1.used? = some 4294967295 := by
  obtain ⟨-, ⟨id, hpeek, -, hused, hstep⟩ | ⟨id, -, hused, hstep⟩ | ⟨-, hused, hstep⟩⟩ :=
    ids.call_cases c
  · rw [hstep, peek_set_self, nextId_eq_none, hpeek, hused]
    simp
  · rw [hstep, peek_observe_self, hused]
    cases ids.peek c.space with
    | none => simp
    | some next =>
      by_cases hle : next ≤ id
      · simp [hle, nextId_eq_none]
      · have hne : id ≠ 4294967295 := by
          rintro rfl
          exact hle (UInt32.le_iff_toNat_le.mpr (Nat.le_of_lt_succ next.toNat_lt))
        simp [hle, hne]
  · rw [hstep, hused]
    simp

/-! ### Calls in a row -/

theorem lt_of_mem_history (h : ids.Reserves space m) {calls : List IdCall} {e : IdEvent}
    (he : e ∈ ids.history calls) (hspace : e.space = space) (hissued : e.issued? = some n) :
    m < n := by
  induction calls generalizing ids with
  | nil => cases he
  | cons c rest ih =>
    rcases List.mem_cons.mp he with rfl | he
    · rw [(ids.call_cases c).1] at hspace
      subst hspace
      exact h n (peek_of_issued hissued)
    · exact ih (h.call c) he

theorem pairwise_history (ids : Ids) (calls : List IdCall) :
    (ids.history calls).Pairwise fun before behind => before.space = behind.space →
      ∀ m n, before.used? = some m → behind.issued? = some n → m < n := by
  induction calls generalizing ids with
  | nil => exact .nil
  | cons c rest ih =>
    refine .cons (fun e he hspace m n hused hissued => ?_) (ih _)
    exact lt_of_mem_history (reserves_call hused) he
      (hspace.symm.trans (ids.call_cases c).1) hissued

theorem peek_after_eq_none (ids : Ids) (calls : List IdCall) (space : IdSpace) :
    (ids.after calls).peek space = none ↔ ids.peek space = none ∨
      ∃ e ∈ ids.history calls, e.space = space ∧ e.used? = some 4294967295 := by
  induction calls generalizing ids with
  | nil => simp [after, history]
  | cons c rest ih =>
    have hstep : (ids.call c).2.peek space = none ↔ ids.peek space = none ∨
        ((ids.call c).1.space = space ∧ (ids.call c).1.used? = some 4294967295) := by
      rw [(ids.call_cases c).1]
      by_cases hspace : c.space = space
      · subst hspace
        simp [peek_call_eq_none]
      · rw [peek_call_of_ne (Ne.symm hspace)]
        simp [hspace]
    rw [after, ih, hstep, history, or_assoc]
    simp

theorem peek_of_refused {c : IdCall} (h : (ids.call c).1 = .refused space) :
    ids.peek space = none := by
  cases c with
  | issue other =>
    rw [call_issue] at h
    split at h
    · cases h
    · next hpeek =>
      cases h
      exact hpeek
  | observe other id => cases h
  | issueRelationship =>
    rw [call_issueRelationship] at h
    split at h
    · cases h
    · next hpeek =>
      cases h
      exact hpeek
  | observeRelationship id => cases h

theorem peek_after_of_refused {calls : List IdCall} (h : .refused space ∈ ids.history calls) :
    (ids.after calls).peek space = none := by
  induction calls generalizing ids with
  | nil => cases h
  | cons c rest ih =>
    rcases List.mem_cons.mp h with h | h
    · exact (peek_after_eq_none ids _ space).mpr (.inl (peek_of_refused h.symm))
    · exact ih h

theorem eq_relationshipId_of_mem_history {id : String} {calls : List IdCall}
    (h : .issuedRelationship id ∈ ids.history calls) : ∃ n, id = relationshipId n := by
  induction calls generalizing ids with
  | nil => cases h
  | cons c rest ih =>
    rcases List.mem_cons.mp h with h | h
    · cases c with
      | issue other =>
        rw [call_issue] at h
        split at h <;> cases h
      | issueRelationship =>
        rw [call_issueRelationship] at h
        split at h
        · cases h
          exact ⟨_, rfl⟩
        · cases h
      | observe _ _ => cases h
      | observeRelationship _ => cases h
    · exact ih h

theorem history_congr {ids ids' : Ids} (h : ids.peek space = ids'.peek space) {calls : List IdCall}
    (hcalls : ∀ c ∈ calls, c.space = space) : ids.history calls = ids'.history calls ∧
      (ids.after calls).peek space = (ids'.after calls).peek space := by
  induction calls generalizing ids ids' with
  | nil => exact ⟨rfl, h⟩
  | cons c rest ih =>
    obtain ⟨hc, hrest⟩ := List.forall_mem_cons.mp hcalls
    subst hc
    obtain ⟨hevent, hpeek⟩ := call_congr h
    obtain ⟨hhistory, hafter⟩ := ih hpeek hrest
    refine ⟨?_, hafter⟩
    rw [history, history, hevent, hhistory]

theorem filter_history (ids : Ids) (calls : List IdCall) (space : IdSpace) :
    (ids.history calls).filter (·.space = space) = ids.history (calls.filter (·.space = space)) ∧
      (ids.after calls).peek space = (ids.after (calls.filter (·.space = space))).peek space := by
  induction calls generalizing ids with
  | nil => exact ⟨rfl, rfl⟩
  | cons c rest ih =>
    obtain ⟨hhistory, hafter⟩ := ih (ids.call c).2
    have hevent := (ids.call_cases c).1
    by_cases hspace : c.space = space
    · have hhead : (ids.call c).1.space = space := hevent.trans hspace
      simp [history, after, hhead, hspace, hhistory, hafter]
    · have hhead : (ids.call c).1.space ≠ space := fun h => hspace (hevent.symm.trans h)
      have hpeek : (ids.call c).2.peek space = ids.peek space := peek_call_of_ne (Ne.symm hspace)
      have hrest : ∀ c' ∈ rest.filter (·.space = space), c'.space = space :=
        fun c' hc' => by simpa using (List.mem_filter.mp hc').2
      obtain ⟨hsame, hafter'⟩ := history_congr hpeek hrest
      simp [history, after, hhead, hspace, hhistory, hsame, hafter, hafter']

/-- What calls in a row keep to, from any ids on. -/
structure Orderly (ids : Ids) (calls : List IdCall) : Prop where
  /-- An id that is issued is greater than every id issued or met before it in its space. -/
  increasing : (ids.history calls).Pairwise fun before behind => before.space = behind.space →
    ∀ m n, before.used? = some m → behind.issued? = some n → m < n
  /-- A relationship id that is issued is spelled by its number, and not as one before it. -/
  spelled : ∀ id, .issuedRelationship id ∈ ids.history calls →
    ∃ n, id = relationshipId n ∧ relationshipNumber? id = some n
  fresh : (ids.history calls).Pairwise fun before behind => ∀ id, behind = .issuedRelationship id →
    before ≠ .issuedRelationship id ∧ before ≠ .metRelationship id
  /-- A space is exhausted as soon as its greatest id is issued or met. -/
  exhausted : ∀ space, (ids.after calls).peek space = none ↔ ids.peek space = none ∨
    ∃ e ∈ ids.history calls, e.space = space ∧ e.used? = some 4294967295
  /-- Behind a refusal the space is exhausted. -/
  refused : ∀ space, .refused space ∈ ids.history calls → (ids.after calls).peek space = none
  /-- Calls in other spaces do not matter. -/
  independent : ∀ space,
    (ids.history calls).filter (·.space = space) = ids.history (calls.filter (·.space = space)) ∧
      (ids.after calls).peek space = (ids.after (calls.filter (·.space = space))).peek space
  /-- The next call issues the id that comes next, and is refused if the space is exhausted. -/
  foretold : ∀ space, ((ids.after calls).call (.issue space)).1 =
    ((ids.after calls).peek space).elim (.refused space) (.issued space)
  foretoldRelationship : ((ids.after calls).call .issueRelationship).1 =
    ((ids.after calls).peek .relationship).elim (.refused .relationship)
      fun n => .issuedRelationship (relationshipId n)

theorem orderly (ids : Ids) (calls : List IdCall) : ids.Orderly calls where
  increasing := ids.pairwise_history calls
  spelled := by
    intro id h
    obtain ⟨n, rfl⟩ := eq_relationshipId_of_mem_history h
    exact ⟨n, rfl, relationshipNumber?_relationshipId n⟩
  fresh := by
    refine (ids.pairwise_history calls).imp_of_mem ?_
    rintro before behind - hbehind h id rfl
    obtain ⟨n, rfl⟩ := eq_relationshipId_of_mem_history hbehind
    have hn := relationshipNumber?_relationshipId n
    constructor
    · rintro rfl
      exact UInt32.lt_irrefl n (h rfl n n hn hn)
    · rintro rfl
      exact UInt32.lt_irrefl n (h rfl n n hn hn)
  exhausted := ids.peek_after_eq_none calls
  refused := fun _ => peek_after_of_refused
  independent := ids.filter_history calls
  foretold := by
    intro space
    rw [call_issue]
    cases (ids.after calls).peek space <;> rfl
  foretoldRelationship := by
    rw [call_issueRelationship]
    cases (ids.after calls).peek .relationship <;> rfl

end Ids

end Letterpress
