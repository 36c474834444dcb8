import FlashDriver.Core.LTS

/-!
# In-flight accounting (`flying`, `interface/interface.c`)

`flying` is meant to count the requests between their creation and
`inf_end_req`, at most `QDEPTH` of them: an entry point waits in `cl_grap`
for room and `inf_end_req` calls `cl_release`. The lock is touched by these
two operations only, each under its mutex, so a call of an entry point is one
step at its `cl_grap` (or, where it has none, at its `assign_req`); a call
that has to wait is not yet possible.

A request counts as created from that step on. Whether `assign_req`, `p_main`
or the algorithm ends it, it does so through `req->end_req`, which is
`inf_end_req`, at any later time. A request that `inf_make_multi_req` refuses
keeps its place and has no way to end: it is `leaked`.

`inf_make_mreq_apps` and `inf_iter_req_apps` never call `cl_grap`, but their
requests release like all others. `flying_accounts` says that this is the
only fault: in every run `now` is the number of requests created and not
ended, and lies between 0 and `QDEPTH`, exactly if neither of the two has
been called. `flying_below_zero` is a run in which one request of
`inf_make_mreq_apps` leaves `now` at -1.
-/
namespace FlashDriver.Interface

open List Option

/-! ## The lock -/

/-- mirrors include/utils/cond_lock.h:5-11 -/
structure ClLock where
  cnt : Int
  now : Int
  zeroLock : Bool
  deriving DecidableEq

/-- mirrors include/utils/cond_lock.c:4-12 (`cl_init`) -/
def clInit (cnt : Int) (zeroLock : Bool) : ClLock := ⟨cnt, 0, zeroLock⟩

/-- mirrors include/utils/cond_lock.c:14-29 (`cl_grap`); `none` while it waits -/
def clGrap (cl : ClLock) : Option ClLock :=
  if cl.zeroLock then
    if cl.now = 0 then none else some { cl with now := cl.now - 1 }
  else
    if cl.now = cl.cnt then none else some { cl with now := cl.now + 1 }

/-- mirrors include/utils/cond_lock.c:59-79 (`cl_release`) -/
def clRelease (cl : ClLock) : ClLock :=
  if cl.zeroLock then { cl with now := cl.now + 1 } else { cl with now := cl.now - 1 }

/-- What holds of a counting lock in use: it never exceeds its limit. -/
structure ClLock.Counts (cl : ClLock) (cnt : Int) : Prop where
  cnt_eq : cl.cnt = cnt
  kind : cl.zeroLock = false
  le : cl.now ≤ cnt

theorem ClLock.counts_init (n : Nat) : (clInit n false).Counts n := ⟨rfl, rfl, by simp [clInit]⟩

theorem clGrap_spec {cl cl' : ClLock} {n : Int} (C : cl.Counts n) (h : clGrap cl = some cl') :
    cl'.Counts n ∧ cl'.now = cl.now + 1 := by
  obtain ⟨hc, hk, hle⟩ := C
  simp only [clGrap, hk, Bool.false_eq_true, if_false] at h
  split at h
  · cases h
  · cases h; exact ⟨⟨hc, rfl, by simp only; omega⟩, rfl⟩

theorem clRelease_spec {cl : ClLock} {n : Int} (C : cl.Counts n) :
    (clRelease cl).Counts n ∧ (clRelease cl).now = cl.now - 1 := by
  obtain ⟨hc, hk, hle⟩ := C
  simp only [clRelease, hk, Bool.false_eq_true, if_false]
  exact ⟨⟨hc, rfl, by simp only; omega⟩, trivial⟩

namespace Flying

/-! ## Entry points -/

/-- mirrors include/types.h:4-21 -/
inductive FsType where
  | set | get | delete | againR | notFound | cacheHit | rmw | mset | mget
  | iterCrt | iterNxt | iterNxtValue | iterAll | iterAllValue | iterRls
  | rangeGet | buseR | buseW
  deriving DecidableEq

/-- What an entry point leaves: the lock, and whether the request went to
`assign_req` (which is also what the call returns). -/
abbrev Entered := Option (ClLock × Bool)

/-- The entry points that take a place and assign the request. -/
def grapAssign (cl : ClLock) : Entered := (clGrap cl).map (·, true)

/-- mirrors interface/interface.c:503-521 -/
def infMakeReq (cl : ClLock) (_ : FsType) : Entered := grapAssign cl

/-- mirrors interface/interface.c:528-551 -/
def infMakeReqSpecial (cl : ClLock) (_ : FsType) : Entered := grapAssign cl

/-- mirrors interface/interface.c:741-758 -/
def infMakeReqApps (cl : ClLock) (_ : FsType) : Entered := grapAssign cl

/-- mirrors interface/interface.c:759-777 -/
def infMakeRangeQueryApps (cl : ClLock) (_ : FsType) : Entered := grapAssign cl

/-- mirrors interface/interface.c:779-804: no `cl_grap` -/
def infMakeMreqApps (cl : ClLock) (_ : FsType) : Entered := some (cl, true)

/-- mirrors interface/interface.c:806-839: no `cl_grap`; `none` is `abort()` -/
def infIterReqApps (cl : ClLock) : FsType → Entered
  | .iterCrt | .iterNxt | .iterNxtValue => none
  | _ => some (cl, true)

/-- mirrors interface/interface.c:679-714: the types of the `default` branch
return false after `cl_grap` -/
def infMakeMultiReq (cl : ClLock) : FsType → Entered
  | .mset | .iterCrt | .iterNxt | .iterNxtValue | .iterRls => grapAssign cl
  | _ => (clGrap cl).map (·, false)

inductive Entry where
  | makeReq | makeReqSpecial | makeReqApps | makeRangeQueryApps
  | makeMreqApps | iterReqApps | makeMultiReq
  deriving DecidableEq

def enter (cl : ClLock) (t : FsType) : Entry → Entered
  | .makeReq => infMakeReq cl t
  | .makeReqSpecial => infMakeReqSpecial cl t
  | .makeReqApps => infMakeReqApps cl t
  | .makeRangeQueryApps => infMakeRangeQueryApps cl t
  | .makeMreqApps => infMakeMreqApps cl t
  | .iterReqApps => infIterReqApps cl t
  | .makeMultiReq => infMakeMultiReq cl t

/-- The entry points that call `cl_grap`. -/
def Entry.graps : Entry → Bool
  | .makeMreqApps | .iterReqApps => false
  | _ => true

theorem enter_spec {cl cl' : ClLock} {t : FsType} {e : Entry} {b : Bool} {n : Int} (C : cl.Counts n)
    (h : enter cl t e = some (cl', b)) :
    cl'.Counts n ∧ cl'.now = cl.now + if e.graps then 1 else 0 := by
  have hgrap : ∀ b', (clGrap cl).map (·, b') = some (cl', b) →
      cl'.Counts n ∧ cl'.now = cl.now + 1 := by
    intro b' hb
    obtain ⟨cl1, hg, he⟩ := map_eq_some_iff.mp hb
    cases he
    exact clGrap_spec C hg
  cases e with
  | makeReq => exact hgrap _ h
  | makeReqSpecial => exact hgrap _ h
  | makeReqApps => exact hgrap _ h
  | makeRangeQueryApps => exact hgrap _ h
  | makeMreqApps => cases h; exact ⟨C, by simp [Entry.graps]⟩
  | iterReqApps =>
    simp only [enter, infIterReqApps] at h
    split at h
    · cases h
    · cases h
    · cases h
    · cases h; exact ⟨C, by simp [Entry.graps]⟩
  | makeMultiReq =>
    simp only [enter, infMakeMultiReq] at h
    split at h <;> exact hgrap _ h

/-! ## Runs -/

structure Request where
  id : Nat
  type : FsType
  deriving DecidableEq

structure St where
  flying : ClLock
  live : List Request       -- handed to assign_req and not ended
  leaked : List Request     -- refused by inf_make_multi_req

inductive Lbl where
  | make (e : Entry) (r : Request)
  | endReq (r : Request)
  deriving DecidableEq

/-- mirrors interface/interface.c:555-639 (`inf_end_req`): the read half of a
read-modify-write comes back as a SET and is assigned again -/
def infEndReq (s : St) (r : Request) : St :=
  if r.type = .rmw then { s with live := { r with type := .set } :: s.live.erase r }
  else { s with live := s.live.erase r, flying := clRelease s.flying }

def step (s : St) : Lbl → Option St
  | .make e r => match enter s.flying r.type e with
    | none => none
    | some (cl, true) => some { s with flying := cl, live := r :: s.live }
    | some (cl, false) => some { s with flying := cl, leaked := r :: s.leaked }
  | .endReq r => if r ∈ s.live then some (infEndReq s r) else none

/-- mirrors interface/interface.c:353: `flying=cl_init(QDEPTH,false)` -/
def flyingLTS (qdepth : Nat) : Core.LTS St Lbl where
  init s := s = ⟨clInit qdepth false, [], []⟩
  step s l s' := step s l = some s'

/-- The requests created and not yet ended. -/
def St.outstanding (s : St) : Nat := s.live.length + s.leaked.length

/-- `now` counts the requests in flight. -/
def Accounted (qdepth : Nat) (s : St) : Prop :=
  s.flying.now = s.outstanding ∧ 0 ≤ s.flying.now ∧ s.flying.now ≤ qdepth

def Lbl.graps : Lbl → Bool
  | .make e _ => e.graps
  | .endReq _ => true

/-- The requests that were created without `cl_grap`. -/
def ungrapped (tr : List Lbl) : Nat := tr.countP fun l => !l.graps

/-- `now` is short by the requests that were created without `cl_grap`,
whether or not they have ended. -/
structure Inv (qdepth : Nat) (tr : List Lbl) (s : St) : Prop where
  counts : s.flying.Counts qdepth
  short : s.flying.now + ungrapped tr = s.outstanding

theorem ungrapped_snoc (tr : List Lbl) (l : Lbl) :
    ungrapped (tr ++ [l]) = ungrapped tr + if l.graps then 0 else 1 := by
  cases hl : l.graps <;> simp [ungrapped, hl]

theorem inv_make {qdepth : Nat} {tr : List Lbl} {s s' : St} {e : Entry} {r : Request}
    (I : Inv qdepth tr s) (h : step s (.make e r) = some s') : Inv qdepth (tr ++ [.make e r]) s' := by
  have key : ∀ cl b, enter s.flying r.type e = some (cl, b) → ∀ t : St, t.flying = cl →
      t.outstanding = s.outstanding + 1 → Inv qdepth (tr ++ [.make e r]) t := by
    intro cl b he t ht ho
    obtain ⟨hC, hnow⟩ := enter_spec I.counts he
    have := I.short
    refine ⟨ht ▸ hC, ?_⟩
    rw [ungrapped_snoc, ht, hnow, ho]
    cases hg : e.graps <;> simp [Lbl.graps, hg] <;> omega
  simp only [step] at h
  split at h
  · cases h
  · rename_i cl he; cases h
    exact key cl true he _ rfl (by simp only [St.outstanding, length_cons]; omega)
  · rename_i cl he; cases h
    exact key cl false he _ rfl (by simp only [St.outstanding, length_cons]; omega)

theorem inv_endReq {qdepth : Nat} {tr : List Lbl} {s s' : St} {r : Request} (I : Inv qdepth tr s)
    (h : step s (.endReq r) = some s') : Inv qdepth (tr ++ [.endReq r]) s' := by
  have hshort := I.short
  have hun : ungrapped (tr ++ [.endReq r]) = ungrapped tr := ungrapped_snoc ..
  simp only [step] at h
  split at h
  · rename_i hr
    have hlen := length_erase_of_mem hr
    have hpos := length_pos_of_mem hr
    simp only [St.outstanding] at hshort
    cases h
    unfold infEndReq
    split
    · refine ⟨I.counts, ?_⟩
      simp only [hun, St.outstanding, length_cons]
      omega
    · obtain ⟨hC, hnow⟩ := clRelease_spec I.counts
      refine ⟨hC, ?_⟩
      simp only [hun, hnow, St.outstanding]
      omega
  · cases h

theorem inv_inductive (qdepth : Nat) : (flyingLTS qdepth).HistInductive (Inv qdepth) where
  init := by
    intro s hs
    cases hs
    exact ⟨ClLock.counts_init qdepth, by simp [ungrapped, St.outstanding, clInit]⟩
  step := by
    intro tr s l s' I hs
    cases l with
    | make e r => exact inv_make I hs
    | endReq r => exact inv_endReq I hs

/-- `now` counts the requests in flight exactly if every call so far took a
place. -/
theorem flying_accounts (qdepth : Nat) (tr : List Lbl) (s : St)
    (h : (flyingLTS qdepth).Exec tr s) : Accounted qdepth s ↔ ∀ l ∈ tr, l.graps = true := by
  have I := h.history_inv (inv_inductive qdepth)
  have hiff : (∀ l ∈ tr, l.graps = true) ↔ ungrapped tr = 0 := by
    simp [ungrapped, countP_eq_zero]
  have hshort := I.short
  have hle := I.counts.le
  rw [hiff]
  unfold Accounted
  omega

/-- A SET, a read-modify-write with both its halves and a refused request. -/
theorem flying_accounts_mixed : ∃ tr s, (flyingLTS 64).Exec tr s ∧ s.flying.now = 2 ∧
    (Accounted 64 s ↔ ∀ l ∈ tr, l.graps = true) ∧ Accounted 64 s := by
  let ls : List Lbl := [.make .makeReq ⟨0, .set⟩, .make .makeReqSpecial ⟨1, .rmw⟩, .endReq ⟨1, .rmw⟩,
    .make .makeMultiReq ⟨2, .get⟩, .endReq ⟨1, .set⟩]
  obtain ⟨s, hE, hd⟩ := Core.LTS.Exec.check (T := flyingLTS 64) (some ⟨clInit 64 false, [], []⟩)
    (fun _ _ => True) ls (fun s => s.flying.now = 2) (fun _ _ _ _ hs => hs)
    (fun _ h => some.inj h.symm) (by decide +kernel)
  have hacc := flying_accounts 64 _ s hE
  exact ⟨_, s, hE, hd, hacc, hacc.mpr (by decide)⟩

/-- One multi-key request, created and ended. -/
theorem flying_below_zero : ∃ tr s, (flyingLTS 64).Exec tr s ∧ s.flying.now = -1 ∧
    s.outstanding = 0 ∧ ¬ Accounted 64 s := by
  obtain ⟨s, hE, hd⟩ := Core.LTS.Exec.check (T := flyingLTS 64) (some ⟨clInit 64 false, [], []⟩)
    (fun _ _ => True) [.make .makeMreqApps ⟨0, .mget⟩, .endReq ⟨0, .mget⟩]
    (fun s => s.flying.now = -1 ∧ s.outstanding = 0) (fun _ _ _ _ hs => hs)
    (fun _ h => some.inj h.symm) (by decide +kernel)
  refine ⟨_, s, hE, hd.1, hd.2, fun h => ?_⟩
  have := h.2.1
  omega

end Flying

end FlashDriver.Interface
