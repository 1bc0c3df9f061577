/-
# Concurrent inserts and the entry point

An insert (`GraphOperations::insert`) locks the graph in shared mode, reads the
entry point and draws its level. If it may have to replace the entry point it
upgrades the lock, which is to release it and take it anew: in between any
other insert can run, so it reads the entry point again. Then it materialises
the levels it needs, makes and links its nodes, and replaces the entry point
last.

Any number of inserts run here at once, each a thread; what they do to the
pages is the index's storage (`Reload`). The lock makes the decision of an
insert that holds it stay right (`Facts`), so the entry point only ever rises,
to the level of the highest insert (`concurrent_inserts`).

Key definitions: `InsertPlace`, `InsertStep`, `inserts`, `Facts`.
Key theorems: `insertStep_spec`, `concurrent_inserts`.
-/
import VsqlVector.Lib.Threads
import VsqlVector.Index.Reload

namespace VsqlVector
namespace Hnsw
namespace EntryPoint

open IndexStore

/-! ### An insert -/

/-- Where an insert is, with the variables it goes on with: the level it drew, its
`entry_level` and its `new_entry_point`. -/
inductive InsertPlace where
  | start
  | locked
  | upgrading (insertLevel entryLevel : ℕ)
  | upgraded (insertLevel entryLevel : ℕ)
  | ready (mode : Latch) (insertLevel entryLevel : ℕ) (newEntryPoint : Bool)
  | inserting (mode : Latch) (insertLevel : ℕ) (newEntryPoint : Bool)
  | inserted (mode : Latch) (insertLevel : ℕ) (newEntryPoint : Bool) (topNode : RawNode)
  | returning (mode : Latch) (insertLevel : ℕ) (topNode : RawNode)
  | finished (insertLevel : ℕ) (topNode : RawNode)
  | failed

namespace InsertPlace

/-- The mode in which an insert has the graph locked. -/
def mode : InsertPlace → Option Latch
  | locked => some .shared
  | upgraded .. => some .exclusive
  | ready m .. | inserting m .. | inserted m .. | returning m .. => some m
  | start | upgrading .. | finished .. | failed => none

/-- The insert has returned. -/
def Over : InsertPlace → Prop
  | finished .. | failed => True
  | _ => False

/-- The level and the top node of an insert that is done. -/
def result : InsertPlace → Option (ℕ × RawNode)
  | returning _ l n | finished l n => some (l, n)
  | _ => none

theorem eq_finished {place : InsertPlace} {l : ℕ} {node : RawNode} (h : place.Over)
    (hr : place.result = some (l, node)) : place = finished l node := by
  cases place with
  | finished l' node' =>
    cases hr
    rfl
  | failed => cases hr
  | start | locked | upgrading | upgraded | ready | inserting | inserted | returning => cases h

end InsertPlace

/-- The index, and who set its entry point last. -/
structure InsertState (T : Type) where
  index : IndexState
  setter : Option T

/-- `get_entry_point`, with the value its `entry_level` variable has. -/
def getEntryPoint (s : IndexState) (entryLevel : ℕ) : List RawNode × ℕ :=
  if s.entryPoint.nid = invalidId then ([], entryLevel) else ([s.entryPoint], s.entryLevel)

section Inserts

variable (T : Type) (ps : PageSize) (emptyRef : ℕ)

/-- A step of the insert `t`. The level it draws and the node it makes are any. It
can fail wherever it reaches the pages. -/
inductive InsertStep (t : T) : InsertState T → InsertPlace → InsertState T → InsertPlace → Prop
  | lock {s : InsertState T} : InsertStep t s .start s .locked
  | stay {s : InsertState T} {l : ℕ} : l < maxLevel →
    ¬ ((getEntryPoint s.index 0).1 = [] ∨ (getEntryPoint s.index 0).2 < l) →
    InsertStep t s .locked s (.ready .shared l (getEntryPoint s.index 0).2 false)
  | release {s : InsertState T} {l : ℕ} : l < maxLevel →
    (getEntryPoint s.index 0).1 = [] ∨ (getEntryPoint s.index 0).2 < l →
    InsertStep t s .locked s (.upgrading l (getEntryPoint s.index 0).2)
  | relock {s : InsertState T} {l e : ℕ} : InsertStep t s (.upgrading l e) s (.upgraded l e)
  | recheck {s : InsertState T} {l e : ℕ} :
    InsertStep t s (.upgraded l e) s (.ready .exclusive l (getEntryPoint s.index e).2
      (decide ((getEntryPoint s.index e).1 = [] ∨ (getEntryPoint s.index e).2 < l)))
  | ensure {s : InsertState T} {x : IndexState} {m : Latch} {l e : ℕ} {new : Bool} :
    ensureLevels (max e l) s.index = (.ok true, x) →
    InsertStep t s (.ready m l e new) { s with index := x } (.inserting m l new)
  | ensureFails {s : InsertState T} {m : Latch} {l e : ℕ} {new : Bool} :
    (ensureLevels (max e l) s.index).1 ≠ .ok true →
    InsertStep t s (.ready m l e new) { s with index := (ensureLevels (max e l) s.index).2 } .failed
  | record {s : InsertState T} {x : IndexState} {m : Latch} {l : ℕ} {new : Bool} : RecordStep s.index x →
    InsertStep t s (.inserting m l new) { s with index := x } (.inserting m l new)
  | insert {s : InsertState T} {m : Latch} {l : ℕ} {new : Bool} {node : RawNode} :
    node.nid ≠ invalidId → node.nid < 2 ^ incomingBit →
    InsertStep t s (.inserting m l new) s (.inserted m l new node)
  | fails {s : InsertState T} {m : Latch} {l : ℕ} {new : Bool} : InsertStep t s (.inserting m l new) s .failed
  | keep {s : InsertState T} {m : Latch} {l : ℕ} {node : RawNode} :
    InsertStep t s (.inserted m l false node) s (.returning m l node)
  | set {s : InsertState T} {x : IndexState} {m : Latch} {l : ℕ} {node : RawNode} :
    setEntryPoint emptyRef node l s.index = (.ok (), x) →
    InsertStep t s (.inserted m l true node) ⟨x, some t⟩ (.returning m l node)
  | setFails {s : InsertState T} {m : Latch} {l : ℕ} {node : RawNode} :
    (setEntryPoint emptyRef node l s.index).1 ≠ .ok () →
    InsertStep t s (.inserted m l true node) { s with index := (setEntryPoint emptyRef node l s.index).2 } .failed
  | unlock {s : InsertState T} {m : Latch} {l : ℕ} {node : RawNode} :
    InsertStep t s (.returning m l node) s (.finished l node)
  | serve {s : InsertState T} {place : InsertPlace} (supply : List (BitVec 32 × Frame)) (faults : List Bool) :
    (∀ x ∈ supply, RootPage.Blank 0 ps.bytes x.2) →
    InsertStep t s place { s with index := serve supply faults s.index } place

/-- Inserts, with the graph lock. -/
def inserts : Threads T (InsertState T) InsertPlace Unit where
  step := InsertStep T ps emptyRef
  held place _ := place.mode

/-- An index that has been through any run, and inserts that have not begun. Where
it has no entry point its entry level is 0, as `create` and `remove` leave it. -/
structure Start (spaceRef : BitVec 32) (M : ℕ) (entry : RawNode) (level : ℕ)
    (x : InsertState T × (T → InsertPlace)) : Prop where
  index : Reached ps emptyRef spaceRef M x.1.index
  entryPoint : x.1.index.entryPoint = entry
  entryLevel : x.1.index.entryLevel = level
  empty : entry.nid = invalidId → level = 0
  setter : x.1.setter = none
  start : ∀ t, x.2 t = .start

end Inserts

/-! ### The invariant -/

section Invariant

variable {T : Type} {ps : PageSize} {emptyRef : ℕ} {spaceRef : BitVec 32} {M : ℕ} {entry : RawNode} {level : ℕ}
  {s s' : InsertState T} {t u : T} {place place' other : InsertPlace}

/-- An insert at `l` replaces the entry point. -/
def Replaces (s : IndexState) (l : ℕ) : Prop := s.entryPoint.nid = invalidId ∨ s.entryLevel < l

/-- The index is on its pages, and its entry point the first one until an insert
has set it; it is never lower. -/
structure Sound (ps : PageSize) (emptyRef : ℕ) (spaceRef : BitVec 32) (M : ℕ) (entry : RawNode) (level : ℕ)
    (s : InsertState T) : Prop where
  whole : ∃ p others, Whole ps emptyRef spaceRef M s.index p others
  empty : s.index.entryPoint.nid = invalidId → s.index.entryLevel = 0
  first : s.setter = none → s.index.entryPoint = entry ∧ s.index.entryLevel = level
  level : level ≤ s.index.entryLevel
  valid : s.setter.isSome → s.index.entryPoint.nid ≠ invalidId

/-- What an insert knows where it is. -/
def Facts (s : IndexState) : InsertPlace → Prop
  | .start | .locked | .failed => True
  | .upgrading l e | .upgraded l e => l < maxLevel ∧ (s.entryPoint.nid = invalidId → e = 0)
  | .ready m l e new =>
    l < maxLevel ∧ e = s.entryLevel ∧ (new = true ↔ Replaces s l) ∧ (m = .shared → new = false)
  | .inserting m l new => s.levels l ∧ (new = true ↔ Replaces s l) ∧ (m = .shared → new = false)
  | .inserted m l new node =>
    s.levels l ∧ (new = true ↔ Replaces s l) ∧ (m = .shared → new = false) ∧
      node.nid ≠ invalidId ∧ node.nid < 2 ^ incomingBit
  | .returning _ l _ | .finished l _ => ¬ Replaces s l

/-- And if it set the entry point last, it is its own. -/
def Knows (t : T) (place : InsertPlace) (s : InsertState T) : Prop :=
  Facts s.index place ∧ (s.setter = some t → place.result = some (s.index.entryLevel, s.index.entryPoint))

/-- A step that leaves the entry point alone. -/
structure Same (s s' : InsertState T) : Prop where
  entryPoint : s'.index.entryPoint = s.index.entryPoint
  entryLevel : s'.index.entryLevel = s.index.entryLevel
  levels : ∀ l, s.index.levels l → s'.index.levels l
  setter : s'.setter = s.setter

/-- A step of `t` that replaces it. -/
structure Replaced (t : T) (s s' : InsertState T) : Prop where
  replaces : Replaces s.index s'.index.entryLevel
  valid : s'.index.entryPoint.nid ≠ invalidId
  setter : s'.setter = some t

theorem Same.refl (s : InsertState T) : Same s s := ⟨rfl, rfl, fun _ h => h, rfl⟩

theorem Same.replaces (h : Same s s') {l : ℕ} : Replaces s'.index l ↔ Replaces s.index l := by
  unfold Replaces
  rw [h.entryPoint, h.entryLevel]

/-- What an insert knows does not change while the entry point stays. -/
theorem Same.facts (h : Same s s') (hf : Facts s.index place) : Facts s'.index place := by
  cases place <;> unfold Facts at * <;> simp only [h.replaces, h.entryLevel, h.entryPoint] at * <;> try exact hf
  · exact ⟨h.levels _ hf.1, hf.2⟩
  · exact ⟨h.levels _ hf.1, hf.2⟩

/-- Nor does it for an insert that does not hold the graph lock, when another one
replaces the entry point. -/
theorem Replaced.facts (h : Replaced t s s') (hempty : s.index.entryPoint.nid = invalidId → s.index.entryLevel = 0)
    (hmode : place.mode = none) (hf : Facts s.index place) : Facts s'.index place := by
  cases place with
  | start | failed => trivial
  | upgrading l e => exact ⟨hf.1, fun hno => absurd hno h.valid⟩
  | finished l node =>
    have hle : s.index.entryLevel ≤ s'.index.entryLevel := by
      rcases h.replaces with hno | hlt
      · rw [hempty hno]
        exact Nat.zero_le _
      · exact hlt.le
    unfold Facts Replaces at *
    push Not at hf ⊢
    exact ⟨h.valid, hf.2.trans hle⟩
  | locked | upgraded | ready | inserting | inserted | returning => cases hmode

/-- The entry point as an insert reads it. -/
theorem getEntryPoint_cases {x : IndexState} {e l : ℕ} (he : x.entryPoint.nid = invalidId → e = x.entryLevel) :
    (getEntryPoint x e).2 = x.entryLevel ∧
      ((getEntryPoint x e).1 = [] ∨ (getEntryPoint x e).2 < l ↔ Replaces x l) := by
  unfold getEntryPoint Replaces
  by_cases hno : x.entryPoint.nid = invalidId
  · simp [hno, he hno]
  · simp [hno]

/-- What `ensure_levels` returns. -/
theorem ensureLevels_true {x x' : IndexState} {target : ℕ} (h : ensureLevels target x = (.ok true, x')) :
    x'.levels target := by
  unfold ensureLevels at h
  rw [Prog.get_bind, Prog.bind_returns] at h
  obtain ⟨⟨⟩, x1, -, h⟩ := h
  rw [Prog.get_bind, Prog.pure_apply, Prod.mk.injEq, Except.ok.injEq] at h
  obtain ⟨hl, rfl⟩ := h
  exact hl

/-- The index on its pages, where nothing of the entry point changes. -/
theorem Sound.of_same (h : Sound ps emptyRef spaceRef M entry level s)
    (hw : ∃ p others, Whole ps emptyRef spaceRef M s'.index p others) (hsame : Same s s') :
    Sound ps emptyRef spaceRef M entry level s' where
  whole := hw
  empty := by
    rw [hsame.entryPoint, hsame.entryLevel]
    exact h.empty
  first := by
    rw [hsame.setter, hsame.entryPoint, hsame.entryLevel]
    exact h.first
  level := by
    rw [hsame.entryLevel]
    exact h.level
  valid := by
    rw [hsame.setter, hsame.entryPoint]
    exact h.valid

/-- **What a step does.** -/
theorem insertStep_spec (hempty : NoRecord emptyRef) (h : Sound ps emptyRef spaceRef M entry level s)
    (hf : Facts s.index place) (hstep : InsertStep T ps emptyRef t s place s' place') :
    Sound ps emptyRef spaceRef M entry level s' ∧ Facts s'.index place' ∧
      ((Same s s' ∧ (place.result.isSome → place'.result = place.result)) ∨
        (place.mode = some .exclusive ∧ Replaced t s s' ∧
          place'.result = some (s'.index.entryLevel, s'.index.entryPoint))) := by
  obtain ⟨p, others, hw⟩ := h.whole
  have hstays : ∀ x : InsertState T, Same s x → (∃ p others, Whole ps emptyRef spaceRef M x.index p others) →
      Facts x.index place' → (place.result.isSome → place'.result = place.result) →
      Sound ps emptyRef spaceRef M entry level x ∧ Facts x.index place' ∧
        ((Same s x ∧ (place.result.isSome → place'.result = place.result)) ∨
          (place.mode = some .exclusive ∧ Replaced t s x ∧
            place'.result = some (x.index.entryLevel, x.index.entryPoint))) :=
    fun x hsame hx hfacts hres => ⟨h.of_same hx hsame, hfacts, .inl ⟨hsame, hres⟩⟩
  cases hstep with
  | lock => exact hstays s (.refl s) h.whole trivial (by intro hr; cases hr)
  | stay hl hkeep =>
    obtain ⟨he, hiff⟩ := getEntryPoint_cases (e := 0) (fun hno => (h.empty hno).symm)
    refine hstays s (.refl s) h.whole ⟨hl, he, ?_, fun _ => rfl⟩ (by intro hr; cases hr)
    rw [← hiff]
    exact ⟨fun hfalse => absurd hfalse Bool.false_ne_true, fun hr => absurd hr hkeep⟩
  | release hl hr =>
    refine hstays s (.refl s) h.whole ⟨hl, fun hno => ?_⟩ (by intro hr; cases hr)
    unfold getEntryPoint
    rw [if_pos hno]
  | relock => exact hstays s (.refl s) h.whole hf (by intro hr; cases hr)
  | recheck =>
    obtain ⟨he, hiff⟩ := getEntryPoint_cases (fun hno => (hf.2 hno).trans (h.empty hno).symm)
    refine hstays s (.refl s) h.whole ⟨hf.1, he, ?_, fun hm => by cases hm⟩ (by intro hr; cases hr)
    rw [decide_eq_true_eq, hiff]
  | @ensure x m l e new hrun =>
    obtain ⟨hl, rfl, hnew, hmode⟩ := hf
    have ht : max s.index.entryLevel l < maxLevel := max_lt (hw.levels_lt hw.entryLevel) hl
    have hg := ensureLevels_whole hw ht
    rw [hrun] at hg
    obtain ⟨others', hw'⟩ := hg.whole
    have hsame : Same s { s with index := x } := ⟨hg.entryPoint, hg.entryLevel, hg.levels, rfl⟩
    have hlevel : x.levels l := hw'.prefix_levels (ensureLevels_true hrun) (le_max_right _ _)
    exact hstays _ hsame ⟨p, others', hw'⟩ ⟨hlevel, hnew.trans hsame.replaces.symm, hmode⟩ (by intro hr; cases hr)
  | @ensureFails m l e new hfail =>
    obtain ⟨hl, rfl, -⟩ := hf
    have hg := ensureLevels_whole hw (max_lt (hw.levels_lt hw.entryLevel) hl)
    exact hstays _ ⟨hg.entryPoint, hg.entryLevel, hg.levels, rfl⟩ ⟨p, hg.whole⟩ trivial (by intro hr; cases hr)
  | @record x m l new hrecord =>
    obtain ⟨hw', hmem⟩ := record_whole hw hrecord
    have hsame : Same s { s with index := x } :=
      ⟨hmem.entryPoint, hmem.entryLevel, fun l hl => by rw [hmem.levels]; exact hl, rfl⟩
    exact hstays _ hsame ⟨p, others, hw'⟩ (hsame.facts hf) (by intro hr; cases hr)
  | insert hvalid hlt =>
    exact hstays s (.refl s) h.whole ⟨hf.1, hf.2.1, hf.2.2, hvalid, hlt⟩ (by intro hr; cases hr)
  | fails => exact hstays s (.refl s) h.whole trivial (by intro hr; cases hr)
  | keep =>
    have hno := hf.2.1.not.mp Bool.false_ne_true
    exact hstays s (.refl s) h.whole hno (by intro hr; cases hr)
  | @set x m l node hrun =>
    obtain ⟨hl, hnew, hmode, hvalid, hlt⟩ := hf
    have hreplaces := hnew.mp rfl
    obtain ⟨x', p', hrun', hentry, hlevel, hlevels, hw'⟩ | ⟨x', hrun', -⟩ := setEntryPoint_whole hw hempty.lt hl
      (hlt.trans (by norm_num [incomingBit])) fun hne => hempty.ne node.nid hne hlt
    · obtain rfl : x = x' := (Prod.mk.inj (hrun.symm.trans hrun')).2
      have hle : level ≤ l := by
        rcases hreplaces with hno | hlt
        · have := h.level
          rw [h.empty hno] at this
          exact this.trans (Nat.zero_le l)
        · exact h.level.trans hlt.le
      have hnot : ¬ Replaces x l := by
        unfold Replaces
        rw [hentry, hlevel]
        push Not
        exact ⟨hvalid, le_rfl⟩
      have hexclusive : m = .exclusive := by
        cases m with
        | shared => cases hmode rfl
        | exclusive => rfl
      refine ⟨⟨⟨p', others, hw'⟩, ?_, ?_, ?_, ?_⟩, hnot, .inr ⟨?_, ⟨?_, ?_, rfl⟩, ?_⟩⟩
      · dsimp only
        rw [hentry]
        exact fun hno => absurd hno hvalid
      · intro hno
        cases hno
      · dsimp only
        rwa [hlevel]
      · intro _
        dsimp only
        rwa [hentry]
      · rw [hexclusive]
        rfl
      · dsimp only
        rwa [hlevel]
      · dsimp only
        rwa [hentry]
      · dsimp only
        rw [hentry, hlevel]
        rfl
    · cases hrun.symm.trans hrun'
  | @setFails m l node hfail =>
    obtain ⟨hl, hnew, hmode, hvalid, hlt⟩ := hf
    obtain ⟨x', p', hrun', -⟩ | ⟨x', hrun', hentry, hlevel, hlevels, hw'⟩ := setEntryPoint_whole hw hempty.lt hl
      (hlt.trans (by norm_num [incomingBit])) fun hne => hempty.ne node.nid hne hlt
    · rw [hrun'] at hfail
      exact absurd rfl hfail
    · rw [hrun']
      exact hstays _ ⟨hentry, hlevel, fun l hl => by rw [hlevels]; exact hl, rfl⟩ ⟨p, others, hw'⟩ trivial
        (by intro hr; cases hr)
  | unlock => exact hstays s (.refl s) h.whole hf fun _ => rfl
  | serve supply faults hblank =>
    have hsame : Same s { s with index := serve supply faults s.index } := ⟨rfl, rfl, fun _ hl => hl, rfl⟩
    exact hstays _ hsame ⟨p, others, serve_whole hw hblank faults⟩ (hsame.facts hf) fun _ => rfl

/-- `ensure_levels` up to the entry level does nothing. -/
theorem ensureLevels_self {x : IndexState} {target : ℕ} (h : target ≤ x.entryLevel) :
    (ensureLevels target x).2 = x := by
  unfold ensureLevels
  rw [Prog.get_bind, Nat.sub_eq_zero_of_le h]
  rfl

/-- A step that makes a root page holds the graph lock alone. -/
theorem exclusive_of_half (h : Sound ps emptyRef spaceRef M entry level s) (hf : Facts s.index place)
    (hstep : InsertStep T ps emptyRef t s place s' place') {l : ℕ} {o : Bool}
    (hnew : half s'.index.multi.stores l o) (hold : ¬ half s.index.multi.stores l o) :
    place.mode = some .exclusive := by
  obtain ⟨p, others, hw⟩ := h.whole
  have hmode : ∀ {m : Latch} {n : Bool}, (m = .shared → n = false) → n = true → some m = some .exclusive := by
    intro m n hm hn
    cases m with
    | shared => rw [hm rfl] at hn; cases hn
    | exclusive => rfl
  -- an insert that shares the lock does not replace the entry point
  have hensure : ∀ {m : Latch} {l e : ℕ} {new : Bool} {x : IndexState}, Facts s.index (.ready m l e new) →
      (ensureLevels (max e l) s.index).2 = x → x ≠ s.index → some m = some Latch.exclusive := by
    rintro m l e new x ⟨-, rfl, hiff, hm⟩ rfl hne
    cases hn : new with
    | true => exact hmode hm hn
    | false =>
      have hkeep : ¬ Replaces s.index l := by
        rw [← hiff, hn]
        exact Bool.false_ne_true
      unfold Replaces at hkeep
      push Not at hkeep
      exact absurd (ensureLevels_self (max_le le_rfl hkeep.2)) hne
  cases hstep with
  | ensure hrun => exact hensure hf (Prod.mk.inj hrun).2 fun he => hold (he ▸ hnew)
  | ensureFails hfail => exact hensure hf rfl fun he => hold (he ▸ hnew)
  | record hrecord =>
    rw [(record_whole hw hrecord).2.stores] at hnew
    exact absurd hnew hold
  | set hrun => exact hmode hf.2.2.1 rfl
  | setFails hfail => exact hmode hf.2.2.1 rfl
  | lock | stay | release | relock | recheck | insert | fails | keep | unlock | serve => exact absurd hnew hold

/-- **The invariant of all runs** of inserts. -/
theorem runs_sound [DecidableEq T] (hempty : NoRecord emptyRef) {x : InsertState T × (T → InsertPlace)}
    (h : Reaches (Start T ps emptyRef spaceRef M entry level) (inserts T ps emptyRef).Step x) :
    (inserts T ps emptyRef).Exclusive x.2 ∧ Sound ps emptyRef spaceRef M entry level x.1 ∧
      ∀ t, Knows t (x.2 t) x.1 := by
  refine Threads.invariant (S := inserts T ps emptyRef) (L := Knows) (fun x hx t u _ r => ?_) (fun x hx => ⟨?_, fun t => ?_⟩)
    (fun t s l s' l' hs hl hstep => ?_) (fun t u s l s' l' m htu hs hl hm hstep hgoes _ => ?_) h
  · show Latch.Goes (x.2 t).mode _
    rw [hx.start t]
    trivial
  · refine ⟨reached_whole hempty hx.index, ?_, fun _ => ⟨hx.entryPoint, hx.entryLevel⟩, hx.entryLevel.ge, ?_⟩
    · rw [hx.entryPoint, hx.entryLevel]
      exact hx.empty
    · rw [hx.setter]
      intro hno
      cases hno
  · unfold Knows
    rw [hx.start t, hx.setter]
    exact ⟨trivial, fun hno => by cases hno⟩
  · obtain ⟨hs', hfacts, ⟨hsame, hres⟩ | ⟨-, -, hres⟩⟩ := insertStep_spec hempty hs hl.1 hstep
    · refine ⟨hs', hfacts, fun hset => ?_⟩
      rw [hsame.setter] at hset
      have hr := hl.2 hset
      rw [hres (by rw [hr]; rfl), hr, hsame.entryLevel, hsame.entryPoint]
    · exact ⟨hs', hfacts, fun _ => hres⟩
  · obtain ⟨-, -, ⟨hsame, -⟩ | ⟨hmode, hrep, -⟩⟩ := insertStep_spec hempty hs hl.1 hstep
    · refine ⟨hsame.facts hm.1, fun hset => ?_⟩
      rw [hsame.setter] at hset
      rw [hm.2 hset, hsame.entryLevel, hsame.entryPoint]
    · have hnone : m.mode = none := by
        have hg : Latch.Goes l.mode m.mode := hgoes ()
        rw [hmode] at hg
        exact Latch.goes_exclusive.mp hg
      refine ⟨hrep.facts hs.empty hnone hm.1, fun hset => ?_⟩
      rw [hrep.setter] at hset
      exact absurd (Option.some.inj hset) htu

/-- **Concurrent inserts.** When all inserts have returned, the entry level is the
greatest of the first entry level and the levels of the inserts that are done,
and the entry point is the first one or the top node of such an insert at that
level. On the way it is only replaced by one of a higher level, or set where
there is none; and whoever makes a root page of a level has the graph locked
for itself. -/
theorem concurrent_inserts [DecidableEq T] (hempty : NoRecord emptyRef) {x : InsertState T × (T → InsertPlace)}
    (h : Reaches (Start T ps emptyRef spaceRef M entry level) (inserts T ps emptyRef).Step x) :
    ((∀ t, (x.2 t).Over) →
      IsGreatest ({level} ∪ {l | ∃ t node, x.2 t = .finished l node}) x.1.index.entryLevel ∧
      (x.1.index.entryPoint = entry ∧ x.1.index.entryLevel = level ∨
        ∃ t, x.2 t = .finished x.1.index.entryLevel x.1.index.entryPoint) ∧
      ∀ t l node, x.2 t = .finished l node → x.1.index.entryPoint.nid ≠ invalidId) ∧
    (∀ y, (inserts T ps emptyRef).Step x y →
      y.1.index.entryPoint = x.1.index.entryPoint ∧ y.1.index.entryLevel = x.1.index.entryLevel ∨
        x.1.index.entryPoint.nid = invalidId ∨ x.1.index.entryLevel < y.1.index.entryLevel) ∧
    ∀ t s' place', InsertStep T ps emptyRef t x.1 (x.2 t) s' place' → ∀ l o, half s'.index.multi.stores l o →
      ¬ half x.1.index.multi.stores l o →
      (x.2 t).mode = some .exclusive ∧ ∀ u, u ≠ t → (x.2 u).mode = none := by
  obtain ⟨hex, hs, hk⟩ := runs_sound hempty h
  have hdone : ∀ {t l node}, x.2 t = .finished l node → ¬ Replaces x.1.index l := by
    intro t l node ht
    have hf := (hk t).1
    rw [ht] at hf
    exact hf
  refine ⟨fun hover => ?_, fun y hstep => ?_, fun t s' place' hstep l o hnew hold => ?_⟩
  · have howner : (x.1.index.entryPoint = entry ∧ x.1.index.entryLevel = level) ∨
        ∃ t, x.2 t = .finished x.1.index.entryLevel x.1.index.entryPoint := by
      cases hset : x.1.setter with
      | none => exact .inl (hs.first hset)
      | some t => exact .inr ⟨t, InsertPlace.eq_finished (hover t) ((hk t).2 hset)⟩
    refine ⟨⟨?_, ?_⟩, howner, fun t l node ht => ?_⟩
    · rcases howner with ⟨-, hlevel⟩ | ⟨t, ht⟩
      · exact .inl hlevel
      · exact .inr ⟨t, _, ht⟩
    · rintro l (rfl | ⟨t, node, ht⟩)
      · exact hs.level
      · have hno := hdone ht
        unfold Replaces at hno
        push Not at hno
        exact hno.2
    · have hno := hdone ht
      unfold Replaces at hno
      push Not at hno
      exact hno.1
  · cases hstep with
    | @intro s s' ls place' t hmove _ =>
      obtain ⟨-, -, ⟨hsame, -⟩ | ⟨-, hrep, -⟩⟩ := insertStep_spec hempty hs (hk t).1 hmove
      · exact .inl ⟨hsame.entryPoint, hsame.entryLevel⟩
      · exact .inr hrep.replaces
  · have hmode := exclusive_of_half hs (hk t).1 hstep hnew hold
    refine ⟨hmode, fun u hu => ?_⟩
    have hg : Latch.Goes (x.2 t).mode (x.2 u).mode := hex t u (Ne.symm hu) ()
    rw [hmode] at hg
    exact Latch.goes_exclusive.mp hg

/-- One insert alone. -/
theorem reaches_alone {init : InsertState Unit × (Unit → InsertPlace) → Prop} {s s' : InsertState Unit}
    (h : Reaches init (inserts Unit ps emptyRef).Step (s, fun _ => place))
    (hstep : InsertStep Unit ps emptyRef () s place s' place') :
    Reaches init (inserts Unit ps emptyRef).Step (s', fun _ => place') := by
  have hmove := h.step (.intro () hstep fun u hu => absurd rfl hu)
  rwa [show Function.update (fun _ => place) () place' = fun _ => place' from funext fun _ => rfl] at hmove

/-- The first insert of an index, at level 1, becomes its entry point. -/
theorem concurrent_inserts_first :
    let x : InsertState Unit × (Unit → InsertPlace) :=
      (⟨(setEntryPoint (2 ^ 64 - 1) ⟨9, 5⟩ 1 twoLevels).2, some ()⟩, fun _ => .finished 1 ⟨9, 5⟩)
    IsGreatest ({0} ∪ {l | ∃ t node, x.2 t = .finished l node}) x.1.index.entryLevel ∧
      x.1.index.entryPoint.nid ≠ invalidId := by
  have hstart : Reaches (Start Unit .k16 (2 ^ 64 - 1) 1 2 .invalid 0) (inserts Unit .k16 (2 ^ 64 - 1)).Step
      (⟨newIndex, none⟩, fun _ => .start) :=
    .init ⟨.init created_newIndex, by decide +kernel, by decide +kernel, fun _ => rfl, rfl, fun _ => rfl⟩
  have hempty : newIndex.entryPoint.nid = invalidId := by decide +kernel
  have hread : getEntryPoint newIndex 0 = ([], 0) := if_pos hempty
  have h1 := reaches_alone (reaches_alone hstart .lock) (.release (l := 1) (by decide) (.inl (by rw [hread])))
  rw [hread] at h1
  have h2 := reaches_alone (reaches_alone h1 .relock) .recheck
  rw [hread] at h2
  have hensure : ensureLevels (max 0 1) newIndex = (.ok true, twoLevels) := Prog.returns_of_fst (by decide +kernel)
  have hnode : (⟨9, 5⟩ : RawNode).nid < 2 ^ incomingBit := by norm_num [incomingBit]
  have h3 := reaches_alone (reaches_alone h2 (.ensure hensure)) (.insert (by decide) hnode)
  have h4 := reaches_alone (reaches_alone h3 (.set (Prog.returns_of_fst (by decide +kernel)))) .unlock
  obtain ⟨hgreatest, -, hvalid⟩ := (concurrent_inserts noRecord_max h4).1 fun _ => trivial
  exact ⟨hgreatest, hvalid () 1 ⟨9, 5⟩ rfl⟩

end Invariant

end EntryPoint
end Hnsw
end VsqlVector
