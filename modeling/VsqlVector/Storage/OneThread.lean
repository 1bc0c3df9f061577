/-
# A sequential call is a run of one thread

What a call of the sequential store does where no page call fails, a thread does that
goes through its call without another coming in between (`call_path`). So the runs of the
sequential store, whose threads call it one after another, are among those of the threads
(`inTurn_reaches`).

Key definitions: `Calm`, `Path`, `request`, `InTurn`.
Key theorems: `insertPage_path`, `call_path`, `path_reaches`, `inTurn_reaches`.
-/
import VsqlVector.Lib.Triple
import VsqlVector.Storage.Concurrent

namespace VsqlVector
namespace Concurrent

open ColumnStore StoreProg DataPage

/-! ### What the lists leave of a thread -/

/-- The thread remembers `info`, and no page call will fail. -/
def Calm (info : LastSlotInfo) (s : Store) : Prop := s.lastSlotInfo = info ∧ s.faults = []

section Calm

variable {info : LastSlotInfo} {s s' : Store} {e : StorageError} {r slot : ℕ} {p : Page} {cs : ColumnStore}

theorem tick_nil (hs : s.faults = []) : tick e s = (.ok (), s) := by rw [tick, hs]

theorem load_nil (hs : s.faults = []) (h : load e r s = (.ok p, s')) : s.pages r = some p ∧ s' = s := by
  rw [load, Prog.bind_apply, tick_nil hs] at h
  exact Prog.ofOption_returns.mp h

theorem keeps_tick : Prog.Keeps (Calm info) (tick e) fun _ => True := by
  refine fun s hs => ⟨fun _ s' h => ?_, fun _ s' h => ?_⟩
  all_goals
    rw [tick_nil hs.2] at h
    cases h
  exact ⟨hs, trivial⟩

theorem keeps_get : Prog.Keeps (Calm info) (Prog.get : StoreProg Store) fun _ => True :=
  Prog.Triple.get.conseq (fun _ hs => hs) (fun _ _ hs => ⟨hs.2, trivial⟩) fun _ hs => hs

theorem keeps_modify {f : Store → Store} (hf : ∀ s, Calm info s → Calm info (f s)) :
    Prog.Keeps (Calm info) (Prog.modify f : StoreProg Unit) fun _ => True :=
  Prog.Triple.modify fun s hs => ⟨hf s hs, trivial⟩

theorem keeps_load : Prog.Keeps (Calm info) (load e r) fun _ => True :=
  .bind keeps_tick fun _ _ => .bind keeps_get fun _ _ =>
    Prog.Triple.ofOption (fun _ _ _ hs => ⟨hs, trivial⟩) fun _ hs => hs

theorem keeps_loadLinked : ∀ {o : Option ℕ}, Prog.Keeps (Calm info) (loadLinked e o) fun _ => True
  | none => .pure trivial
  | some _ => .bind keeps_load fun _ _ => .pure trivial

theorem keeps_modifyPage {f : Page → Page} : Prog.Keeps (Calm info) (modifyPage r f) fun _ => True :=
  keeps_modify fun _ => id

theorem keeps_modifyLinked {o : Option ℕ} {f : Page → Page} : Prog.Keeps (Calm info) (modifyLinked o f) fun _ => True :=
  keeps_modify fun _ => id

theorem keeps_modifyRoot {f : RootFrame → RootFrame} : Prog.Keeps (Calm info) (modifyRoot f) fun _ => True :=
  keeps_modify fun _ => id

theorem keeps_readPage : Prog.Keeps (Calm info) (readPage r) fun _ => True :=
  .bind keeps_get fun _ _ => Prog.Triple.ofOption (fun _ _ _ hs => ⟨hs, trivial⟩) fun _ hs => hs

theorem keeps_addFreePage : Prog.Keeps (Calm info) (RootPage.addFreePage cs r slot e) fun _ => True :=
  .bind keeps_get fun _ _ => .bind keeps_loadLinked fun _ _ => .bind keeps_modifyLinked fun _ _ =>
    .bind keeps_modifyRoot fun _ _ => .bind keeps_modifyPage fun _ _ => .bind keeps_modifyPage fun _ _ => keeps_modifyRoot

theorem keeps_addDataPage : Prog.Keeps (Calm info) (RootPage.addDataPage r e) fun _ => True :=
  .bind keeps_get fun _ _ => .bind keeps_loadLinked fun _ _ => .bind keeps_modifyRoot fun _ _ =>
    .bind keeps_modifyLinked fun _ _ => .bind keeps_modifyPage fun _ _ => .bind keeps_modifyRoot fun _ _ =>
      keeps_modifyRoot

theorem keeps_removeFreePage : Prog.Keeps (Calm info) (RootPage.removeFreePage cs r e) fun _ => True :=
  .bind keeps_readPage fun _ _ => .bind keeps_loadLinked fun _ _ => .bind keeps_loadLinked fun _ _ =>
    .bind keeps_modifyRoot fun _ _ => .bind keeps_modifyLinked fun _ _ => .bind keeps_modifyLinked fun _ _ =>
      .bind keeps_modifyPage fun _ _ => keeps_modifyRoot

theorem keeps_tickPrimary : Prog.Keeps (Calm info) (tickPrimary cs e) fun _ => True := by
  unfold tickPrimary
  split
  · exact keeps_tick
  · exact .pure trivial

theorem keeps_loadNew : Prog.Keeps (Calm info) (loadNew e cs r) fun _ => True := by
  refine .bind keeps_tick fun _ _ => .bind keeps_get fun s _ => ?_
  split
  · exact keeps_modify fun _ => id
  · exact .fail

theorem keeps_insertNewPage : Prog.Keeps (Calm info) (insertNewPage cs r) fun _ => True := by
  refine .bind keeps_tickPrimary fun _ _ => .bind keeps_loadNew fun _ _ => .bind keeps_tickPrimary fun _ _ =>
    .bind keeps_modifyPage fun _ _ => .bind keeps_addDataPage fun _ _ => .bind keeps_readPage fun p _ =>
      .bind keeps_get fun _ _ => ?_
  split
  · exact .pure trivial
  · exact keeps_addFreePage

theorem purgeRelatch_nil {b : Bool} {u : Unit} (hs : s.faults = []) (h : purgeRelatch r b s = (.ok u, s')) : s' = s := by
  cases b with
  | false => exact (Prod.mk.inj h).2.symm
  | true =>
    obtain ⟨_, s₁, htick, h₁⟩ := Prog.bind_returns.mp h
    obtain ⟨-, rfl⟩ := Prod.mk.inj ((tick_nil hs).symm.trans htick)
    obtain ⟨_, s₂, htick₂, h₂⟩ := Prog.bind_returns.mp h₁
    obtain ⟨-, rfl⟩ := Prod.mk.inj ((tick_nil hs).symm.trans htick₂)
    obtain ⟨_, s₃, hload, h₃⟩ := Prog.bind_returns.mp h₂
    exact (Prod.mk.inj h₃).2.symm.trans (load_nil hs hload).2

theorem record_nil {d : DataPage} {t : BitVec 64} {data : List (BitVec 8)} {colRef : ℕ} (hs : s.faults = [])
    (h : d.insert r t data s = (.ok colRef, s')) : s'.faults = [] := by
  obtain ⟨p, s₁, hread, hwrite⟩ := Prog.bind_returns.mp h
  obtain ⟨-, hs₁⟩ := readPage_returns hread
  rw [Prog.get_bind, hs₁] at hwrite
  rw [← (Prod.mk.inj hwrite).2]
  exact hs

/-- A call that returned left the store to its thread as it was. -/
theorem calm_of_returns {α : Type} {m : StoreProg α} {a : α} (hm : Prog.Keeps (Calm info) m fun _ => True)
    (hs : Calm info s) (h : m s = (.ok a, s')) : Calm info s' := ((hm s hs).1 a s' h).1

end Calm

/-! ### The path of a call -/

section Path

variable {ι : Type} [DecidableEq ι] {cs : ι → ColumnStore} {σ : ι → StorePages} {info : LastSlotInfo}
  {i : ι} {c : Record} {s s' : Store} {env : InsertEnv} {r : ℕ} {sel : Option ℕ} {grow : Bool}

/-- A thread goes on alone. -/
abbrev Path (cs : ι → ColumnStore) : (ι → StorePages) × Worker ι → (ι → StorePages) × Worker ι → Prop :=
  Relation.ReflTransGen fun x y => Move cs x.1 x.2 y.1 y.2

theorem Path.step {σ' : ι → StorePages} {w w' : Worker ι} (h : Move cs σ w σ' w') : Path cs (σ, w) (σ', w') := .single h

/-- The stores with what a call left of store `i`. -/
abbrev put (σ : ι → StorePages) (i : ι) (s : Store) : ι → StorePages := Function.update σ i (sharedPages s)

theorem put_store (hs : s.faults = []) : (put σ i s i).store s.lastSlotInfo = s := by
  rw [put, Function.update_self, StorePages.store, sharedPages, ← hs]

theorem put_put : put (put σ i s) i s' = put σ i s' := Function.update_idem ..

theorem put_self : put σ i ((σ i).store info) = σ := Function.update_eq_self i σ

/-- From the page selected under the exclusive latch to the page for the record. -/
theorem insertSelected_path (memo : Memo (PageId ι))
    (h : insertSelected (cs i) env sel ((σ i).store info) = (.ok r, s')) :
    Calm info s' ∧ ∃ memo', Path cs (σ, ⟨info, memo, .insertExclusive i c sel⟩)
      (put σ i s', ⟨info, memo', .insertRecord i c r⟩) := by
  have hcalm : Calm info ((σ i).store info) := ⟨rfl, rfl⟩
  cases sel with
  | none =>
    obtain ⟨u, s₁, hnew, hret⟩ := Prog.bind_returns.mp h
    obtain ⟨hr, rfl⟩ := Prod.mk.inj hret
    obtain rfl := Except.ok.inj hr
    obtain ⟨hnone, hroot, hlt, -⟩ := insertNewPage_cases hnew
    exact ⟨calm_of_returns keeps_insertNewPage hcalm hnew, _, (Path.step .latchSegment).trans <|
      (Path.step (.allocate env.newRef hnone hroot hlt)).trans <| (Path.step .releaseSegment).trans <|
      Path.step (.register hnew)⟩
  | some q =>
    obtain ⟨p, s₁, hload, h⟩ := Prog.bind_returns.mp h
    obtain ⟨hp, rfl⟩ := load_nil rfl hload
    rcases hlast : hasLastFreeSlot p with _ | _
    · rw [hlast] at h
      obtain ⟨hr, rfl⟩ := Prod.mk.inj h
      obtain rfl := Except.ok.inj hr
      rw [put_self]
      exact ⟨hcalm, _, (Path.step .latchPicked).trans <| Path.step (.keep hp hlast)⟩
    · rw [hlast] at h
      obtain ⟨u, s₂, hremove, hret⟩ := Prog.bind_returns.mp h
      obtain ⟨hr, rfl⟩ := Prod.mk.inj hret
      obtain rfl := Except.ok.inj hr
      exact ⟨calm_of_returns keeps_removeFreePage hcalm hremove, _, (Path.step .latchPicked).trans <|
        (Path.step (.latchPrev hp hlast)).trans <| Path.step (.unlink hp hremove)⟩

/-- The pessimistic path. -/
theorem insertPessimistic_path (memo : Memo (PageId ι))
    (h : insertPessimistic (cs i) env grow ((σ i).store info) = (.ok r, s')) :
    s'.faults = [] ∧ ∃ memo', Path cs (σ, ⟨info, memo, .insertReleased i c grow⟩)
      (put σ i s', ⟨s'.lastSlotInfo, memo', .insertRecord i c r⟩) := by
  obtain ⟨u, s₁, htick, h⟩ := Prog.bind_returns.mp h
  obtain ⟨-, rfl⟩ := Prod.mk.inj ((tick_nil rfl).symm.trans htick)
  obtain ⟨u, s₁, htick, h⟩ := Prog.bind_returns.mp h
  obtain ⟨-, rfl⟩ := Prod.mk.inj ((tick_nil rfl).symm.trans htick)
  rw [modifyRoot, Prog.modify_bind] at h
  obtain ⟨sel, s₁, hselect, h⟩ := Prog.bind_returns.mp h
  have hfaults : s₁.faults = [] := by
    rw [RootPage.pageSelect_apply] at hselect
    rw [← (Prod.mk.inj hselect).2]
    rfl
  rw [← put_store (σ := σ) (i := i) hfaults] at h
  obtain ⟨⟨hinfo, hfaults'⟩, memo', hpath⟩ := insertSelected_path (c := c) ((rootId cs i, .exclusive) :: memo) h
  rw [put_put] at hpath
  rw [hinfo]
  exact ⟨hfaults', memo', (Path.step (.latchRoot env.pessimisticRand rfl hselect)).trans hpath⟩

/-- The page selected under the shared latch has room, or the pessimistic path is taken. -/
theorem insertOptimistic_path (memo : Memo (PageId ι))
    (h : insertOptimistic (cs i) env sel ((σ i).store info) = (.ok r, s')) :
    s'.faults = [] ∧ ∃ memo', Path cs (σ, ⟨info, memo, .insertSelected i c sel false⟩)
      (put σ i s', ⟨s'.lastSlotInfo, memo', .insertRecord i c r⟩) := by
  cases sel with
  | none =>
    obtain ⟨hfaults, memo', hpath⟩ := insertPessimistic_path (c := c) (memo.erase (rootId cs i, .shared)) h
    exact ⟨hfaults, memo', (Path.step (.releaseRoot (.inr rfl))).trans hpath⟩
  | some q =>
    obtain ⟨p, s₁, hload, h⟩ := Prog.bind_returns.mp h
    obtain ⟨hp, rfl⟩ := load_nil rfl hload
    rcases hlast : hasLastFreeSlot p with _ | _
    · rw [hlast] at h
      obtain ⟨u, s₁, htick, h⟩ := Prog.bind_returns.mp h
      obtain ⟨-, rfl⟩ := Prod.mk.inj ((tick_nil rfl).symm.trans htick)
      obtain ⟨hr, rfl⟩ := Prod.mk.inj h
      obtain rfl := Except.ok.inj hr
      rw [put_self]
      exact ⟨rfl, _, (Path.step .latchSelected).trans <| Path.step (.roomy hp hlast)⟩
    · rw [hlast] at h
      obtain ⟨u, s₁, htick, h⟩ := Prog.bind_returns.mp h
      obtain ⟨-, rfl⟩ := Prod.mk.inj ((tick_nil rfl).symm.trans htick)
      obtain ⟨hfaults, memo', hpath⟩ := insertPessimistic_path (c := c) _ h
      exact ⟨hfaults, memo', (Path.step .latchSelected).trans <| (Path.step (.releaseLast hp hlast)).trans <|
        (Path.step .releaseRootLast).trans hpath⟩

/-- Up to the page for the record. -/
theorem insertPage_path (memo : Memo (PageId ι)) {t : BitVec 64} {data : List (BitVec 8)}
    (hlen : data.length = (cs i).root.columnSize)
    (h : insertPage (cs i) env ((σ i).store info) = (.ok r, s')) :
    s'.faults = [] ∧ ∃ memo', Path cs (σ, ⟨info, memo, .called i (.insert t data)⟩)
      (put σ i s', ⟨s'.lastSlotInfo, memo', .insertRecord i ⟨t, data⟩ r⟩) := by
  obtain ⟨u, s₁, htick, h⟩ := Prog.bind_returns.mp h
  obtain ⟨-, rfl⟩ := Prod.mk.inj ((tick_nil rfl).symm.trans htick)
  obtain ⟨sel, s₁, hselect, h⟩ := Prog.bind_returns.mp h
  have hs₁ : s₁ = (σ i).store s₁.lastSlotInfo := by
    rw [RootPage.pageSelect_apply] at hselect
    rw [← (Prod.mk.inj hselect).2]
    rfl
  rw [Prog.get_bind, hs₁] at h
  have hmove : Path cs (σ, ⟨info, memo, .called i (.insert t data)⟩) (σ, ⟨s₁.lastSlotInfo, (rootId cs i, .shared) :: memo,
      .insertSelected i ⟨t, data⟩ sel (needGrow (cs i) env (σ i).root)⟩) :=
    Path.step (.select env hlen hselect)
  rcases hgrow : needGrow (cs i) env (σ i).root with _ | _
  · rw [show needGrow (cs i) env ((σ i).store s₁.lastSlotInfo).root = false from hgrow] at h
    rw [hgrow] at hmove
    obtain ⟨hfaults, memo', hpath⟩ := insertOptimistic_path _ h
    exact ⟨hfaults, memo', hmove.trans hpath⟩
  · rw [show needGrow (cs i) env ((σ i).store s₁.lastSlotInfo).root = true from hgrow] at h
    rw [hgrow] at hmove
    obtain ⟨hfaults, memo', hpath⟩ := insertPessimistic_path _ h
    exact ⟨hfaults, memo', hmove.trans <| (Path.step (.releaseRoot (.inl rfl))).trans hpath⟩

theorem insert_path (memo : Memo (PageId ι)) {t : BitVec 64} {data : List (BitVec 8)} {colRef : ℕ}
    (h : (cs i).insert env t (some data) ((σ i).store info) = (.ok colRef, s')) :
    s'.faults = [] ∧ ∃ memo', Path cs (σ, ⟨info, memo, .called i (.insert t data)⟩)
      (put σ i s', ⟨s'.lastSlotInfo, memo', .idle⟩) := by
  simp only [ColumnStore.insert] at h
  split at h
  · cases (Prod.mk.inj h).1
  · rename_i hlen
    obtain ⟨r, s₁, hpage, hrecord⟩ := Prog.bind_returns.mp h
    obtain ⟨hfaults, memo', hpath⟩ := insertPage_path (t := t) memo (not_not.mp hlen) hpage
    have hend := record_nil hfaults hrecord
    rw [← put_store (σ := σ) (i := i) hfaults] at hrecord
    have hmove : Path cs (put σ i s₁, ⟨s₁.lastSlotInfo, memo', .insertRecord i ⟨t, data⟩ r⟩)
        (put (put σ i s₁) i s', ⟨s'.lastSlotInfo, memo', .idle⟩) := Path.step (.record hrecord)
    rw [put_put] at hmove
    exact ⟨hend, memo', hpath.trans hmove⟩

/-- A page written in place. -/
theorem map_of_present {f : ℕ → Option Page} {p p' : Page} (hp : f r = some p) :
    (fun q => (f q).map fun p => if q = r then p' else p) = Function.update f r (some p') := by
  funext q
  by_cases hq : q = r
  · subst hq
    rw [Function.update_self, hp, Option.map_some, if_pos rfl]
  · rw [Function.update_of_ne hq]
    simp [hq]

theorem put_eq_setPage {p : Page} (hroot : s'.root = (σ i).root)
    (hpages : s'.pages = Function.update (σ i).pages r (some p)) :
    put σ i s' = setPage σ i r p := by
  rw [put, sharedPages, hroot, hpages]
  rfl

theorem markDelete_path (memo : Memo (PageId ι)) {t : BitVec 64} {colRef : ℕ} {mark : Bool}
    (h : (cs i).markDelete t colRef mark ((σ i).store info) = (.ok (), s')) :
    Calm info s' ∧ ∃ memo', Path cs (σ, ⟨info, memo, .called i (.markDelete t colRef mark)⟩)
      (put σ i s', ⟨info, memo', .idle⟩) := by
  obtain ⟨p, hp, hpages⟩ := markDelete_page h
  obtain ⟨p, s₁, hload, h⟩ := Prog.bind_returns.mp h
  obtain ⟨-, rfl⟩ := load_nil rfl hload
  obtain ⟨u, s₁, hmark, h⟩ := Prog.bind_returns.mp h
  obtain ⟨-, rfl⟩ := Prod.mk.inj hmark
  obtain ⟨-, rfl⟩ := Prod.mk.inj h
  rw [put_eq_setPage rfl hpages]
  exact ⟨⟨rfl, rfl⟩, _, Path.step (.markDelete hp)⟩

/-- A purge that had to give up its page latched the root page first. -/
theorem purge_path (memo : Memo (PageId ι)) {t : BitVec 64} {colRef rand : ℕ}
    (h : (cs i).purge rand t colRef ((σ i).store info) = (.ok (), s')) :
    Calm info s' ∧ ∃ memo', Path cs (σ, ⟨info, memo, .called i (.purge t colRef)⟩)
      (put σ i s', ⟨info, memo', .idle⟩) := by
  obtain ⟨p, s₀, hload, h₁⟩ := Prog.bind_returns.mp h
  obtain ⟨hp, rfl⟩ := load_nil rfl hload
  obtain ⟨_, s₁, hrelatch, h₂⟩ := Prog.bind_returns.mp h₁
  obtain rfl := purgeRelatch_nil rfl hrelatch
  obtain ⟨⟨p', purged⟩, s₂, hfind, h₃⟩ := Prog.bind_returns.mp h₂
  obtain ⟨hpurge, rfl⟩ := Prog.ofOption_returns.mp hfind
  have hpurged : purgedPage (cs i).data t (slotOf colRef) p = (p', purged) := congrArg (Option.getD · (p, false)) hpurge
  obtain ⟨_, s₂, hwrite, h₄⟩ := Prog.bind_returns.mp h₃
  have hcalm : Calm info s₂ := calm_of_returns keeps_modifyPage ⟨rfl, rfl⟩ hwrite
  obtain ⟨hroot, hpages⟩ := modifyPage_returns hwrite
  have hset : put σ i s₂ = setPage σ i (pageOf colRef) p' := put_eq_setPage hroot (hpages.trans (map_of_present hp))
  have hlatch : Path cs (σ, ⟨info, memo, .called i (.purge t colRef)⟩)
      (σ, ⟨info, (.data i (pageOf colRef), .exclusive) :: memo, .purgeLatched i t colRef⟩) :=
    Path.step (.latchPurge (Option.isSome_iff_exists.mpr ⟨p, hp⟩))
  rw [Prog.get_bind] at h₄
  rcases hneeds : needsAddToFreeList p true with _ | _
  · have hstays : (purgedPage (cs i).data t (slotOf colRef) p).1 = p' := congrArg Prod.fst hpurged
    rw [hneeds, if_neg fun hc => Bool.false_ne_true hc.1] at h₄
    obtain rfl := (Prod.mk.inj h₄).2
    rw [hset, ← hstays]
    exact ⟨hcalm, _, hlatch.trans <| Path.step (.purge hp hneeds)⟩
  · have hrelatched := (hlatch.trans <| Path.step (.releasePurge hp hneeds)).trans <|
      (Path.step .latchPurgeRoot).trans <| Path.step .relatchPurge
    rcases hagain : (purged && needsAddToFreeList p' false) with _ | _
    · rw [if_neg fun hc => Bool.false_ne_true (hagain.symm.trans ((Bool.and_eq_true _ _).mpr hc.2))] at h₄
      obtain rfl := (Prod.mk.inj h₄).2
      rw [hset]
      exact ⟨hcalm, _, hrelatched.trans <| Path.step (.purgeStays hp hpurged hagain)⟩
    · obtain ⟨rfl, hlow⟩ := (Bool.and_eq_true _ _).mp hagain
      rw [if_pos ⟨hneeds, rfl, hlow⟩] at h₄
      have hstore : (setPage σ i (pageOf colRef) p' i).store info = s₂ := by
        rw [← hset, ← hcalm.1]
        exact put_store hcalm.2
      rw [hroot, ← hstore] at h₄
      have hend : Function.update (setPage σ i (pageOf colRef) p') i (sharedPages s') = put σ i s' := by
        rw [← hset]
        exact put_put
      rw [← hend]
      exact ⟨calm_of_returns keeps_addFreePage ⟨rfl, rfl⟩ h₄, _, hrelatched.trans <|
        (Path.step (.purgeLeaves rand hp hpurged hlow)).trans <| Path.step (.link h₄)⟩

/-- The request of a call. -/
def request : Call → Request
  | .insert _ t data => .insert t (data.getD [])
  | .markDelete t colRef mark => .markDelete t colRef mark
  | .purge _ t colRef => .purge t colRef

/-- **A call of the sequential store is a path of one thread.** -/
theorem call_path (memo : Memo (PageId ι)) {c : Call} {res : Option ℕ}
    (h : (cs i).call c ((σ i).store info) = (.ok res, s')) :
    s'.faults = [] ∧ ∃ memo', Path cs (σ, ⟨info, memo, .called i (request c)⟩)
      (put σ i s', ⟨s'.lastSlotInfo, memo', .idle⟩) := by
  cases c with
  | insert env t data =>
    cases data with
    | none =>
      obtain ⟨_, hfail, -⟩ := Prog.map_returns.mp h
      cases (Prod.mk.inj hfail).1
    | some data =>
      obtain ⟨_, hinsert, -⟩ := Prog.map_returns.mp h
      exact insert_path memo hinsert
  | markDelete t colRef mark =>
    obtain ⟨_, hmark, -⟩ := Prog.map_returns.mp h
    obtain ⟨⟨hinfo, hfaults⟩, hpath⟩ := markDelete_path memo hmark
    rw [hinfo]
    exact ⟨hfaults, hpath⟩
  | purge rand t colRef =>
    obtain ⟨_, hpurge, -⟩ := Prog.map_returns.mp h
    obtain ⟨⟨hinfo, hfaults⟩, hpath⟩ := purge_path memo hpurge
    rw [hinfo]
    exact ⟨hfaults, hpath⟩

end Path

/-! ### The other threads look on -/

section Alone

variable {ι T : Type} [DecidableEq ι] [DecidableEq T] {cs : ι → ColumnStore} {allow : Memo (PageId ι) → Prop}
  {init : (ι → StorePages) × (T → Worker ι) → Prop}

/-- **A thread goes its path** where the others have no latches. -/
theorem path_reaches {x y : (ι → StorePages) × Worker ι} {ws : T → Worker ι} {t : T}
    (hothers : ∀ u, u ≠ t → (ws u).memo = [])
    (hp : Path cs x y) (h : Reaches init (threads cs T allow).Step (x.1, Function.update ws t x.2)) :
    Reaches init (threads cs T allow).Step (y.1, Function.update ws t y.2) := by
  induction hp with
  | refl => exact h
  | @tail y z _ hmove ih =>
    refine ih.step ?_
    have hgranted : (threads cs T allow).Granted (Function.update ws t y.2) t z.2 := fun u hu r => by
      rw [Function.update_of_ne hu]
      show Latch.Goes _ ((ws u).memo.mode r)
      rw [hothers u hu, Memo.mode_nil]
      exact Latch.goes_none_right
    have hown : Function.update ws t y.2 t = y.2 := Function.update_self ..
    have hstep := Threads.Step.intro (S := threads cs T allow) t (.move (hown.symm ▸ hmove)) hgranted
    rwa [Function.update_idem] at hstep

/-- The call of an idle thread, with nothing else under way. -/
theorem called_reaches {σ : ι → StorePages} {ws : T → Worker ι} (t : T) (i : ι) (q : Request)
    (hallow : allow []) (hidle : ∀ u, (ws u).memo = [] ∧ (ws u).place = .idle)
    (h : Reaches init (threads cs T allow).Step (σ, ws)) :
    Reaches init (threads cs T allow).Step (σ, Function.update ws t ⟨(ws t).info, [], .called i q⟩) := by
  refine h.step (.intro t ?_ fun u _ r => Latch.goes_none_left)
  rw [show ws t = ⟨(ws t).info, [], .idle⟩ from congrArg₂ (Worker.mk _) (hidle t).1 (hidle t).2]
  exact .call i q hallow

/-- A call with nothing else under way, and the commit of its mini-transaction. -/
theorem call_reaches {σ : ι → StorePages} {ws : T → Worker ι} {t : T} {i : ι} {c : Call} {res : Option ℕ} {s' : Store}
    (hallow : allow []) (hidle : ∀ u, (ws u).memo = [] ∧ (ws u).place = .idle)
    (hcall : (cs i).call c ((σ i).store (ws t).info) = (.ok res, s'))
    (h : Reaches init (threads cs T allow).Step (σ, ws)) :
    Reaches init (threads cs T allow).Step (put σ i s', Function.update ws t ⟨s'.lastSlotInfo, [], .idle⟩) := by
  obtain ⟨-, memo', hpath⟩ := call_path [] hcall
  have hothers : ∀ u, u ≠ t → (ws u).memo = [] := fun u _ => (hidle u).1
  have hdone := path_reaches hothers hpath (called_reaches t i (request c) hallow hidle h)
  rcases eq_or_ne memo' [] with rfl | hne
  · exact hdone
  · exact path_reaches hothers (Path.step (.commit hne)) hdone

/-- The threads call the store one after another, each with its own `s_last_slot_info`. -/
def InTurn (cs : ColumnStore) (x y : StorePages × (T → LastSlotInfo)) : Prop :=
  ∃ t c res s', cs.call c (x.1.store (x.2 t)) = (.ok res, s') ∧
    y = (sharedPages s', Function.update x.2 t s'.lastSlotInfo)

/-- **Calls in turn are a run of the threads.** -/
theorem inTurn_reaches {cs : ColumnStore} {allow : Memo (PageId Unit) → Prop} {x y : StorePages × (T → LastSlotInfo)}
    (hallow : allow []) (hx : x.1 = ⟨RootFrame.format, fun _ => none⟩) (h : Relation.ReflTransGen (InTurn cs) x y) :
    Reaches Fresh (threads (fun _ : Unit => cs) T allow).Step (fun _ => y.1, fun t => ⟨y.2 t, [], .idle⟩) := by
  induction h with
  | refl => exact .init ⟨fun _ => hx, fun _ => ⟨rfl, rfl⟩⟩
  | @tail y z _ hcall ih =>
    obtain ⟨t, c, res, s', hcall, rfl⟩ := hcall
    have hnext := call_reaches (i := ()) (t := t) hallow (fun _ => ⟨rfl, rfl⟩) hcall ih
    have hput : put (fun _ => y.1) () s' = fun _ => sharedPages s' := funext fun _ => rfl
    have hworkers : Function.update (fun u => (⟨y.2 u, [], .idle⟩ : Worker Unit)) t ⟨s'.lastSlotInfo, [], .idle⟩ =
        fun u => ⟨Function.update y.2 t s'.lastSlotInfo u, [], .idle⟩ := by
      funext u
      by_cases hu : u = t
      · subst hu
        rw [Function.update_self, Function.update_self]
      · rw [Function.update_of_ne hu, Function.update_of_ne hu]
    rwa [hput, hworkers] at hnext

/-- A small store and two threads before the first call. -/
def noPages : Unit → StorePages := fun _ => sharedPages emptyStore
def twoIdle : Bool → Worker Unit := fun _ => ⟨emptyStore.lastSlotInfo, [], .idle⟩

theorem apart_smallStore : smallStore.data.Apart 2000 := by
  constructor <;> decide

theorem reaches_twoIdle :
    Reaches Fresh (threads (fun _ : Unit => smallStore) Bool fun m => m = []).Step (noPages, twoIdle) := .init ⟨fun _ => rfl, fun _ => ⟨rfl, rfl⟩⟩

end Alone

end Concurrent
end VsqlVector
