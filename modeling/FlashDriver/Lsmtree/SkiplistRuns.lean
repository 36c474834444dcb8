import FlashDriver.Lsmtree.Cutting

/-!
# Runs of skiplist operations

Any number of lists over one memory, under inserts with a value, inserts with
an address and divisions. The specification keeps a map from keys to entries
for each list.

* `View`, `Inv`: each list is well formed, holds its map, and no node is in
  two lists.
* `step_safe`, `step_stuck`: an operation keeps this, or the program reads
  through a null `value_set`.
* `skiplist_represents`: over a whole run.
-/
namespace FlashDriver.Lsmtree.Skip

open List Option Function
open Core.SkipChain

variable {δ : Type}

/-! ## Operations -/

/-- The operations on the lists `0, 1, …`. A division names its target by the key. -/
inductive Op (δ : Type)
  | init
  | insert (l : Nat) (key : Key) (value : Option (ValueSet δ)) (deletef : Bool) (rand : Nat → Nat)
  | insertWP (l : Nat) (key : Key) (ppa : UInt32) (deletef : Bool) (rand : Nat → Nat)
  | divide (l : Nat) (key : Key)
  | divideAll (l : Nat)

structure Sys (δ : Type) where
  mem : Mem δ
  lists : List Skiplist

/-- `divide` sets the counters as `skiplist_cutting_header` does; `divideAll` is the division at
the header, as in `array_p_merger_cutter`. -/
def Sys.step (s : Sys δ) : Op δ → Option (Sys δ)
  | .init => some ⟨(skiplistInit s.mem).1, s.lists ++ [(skiplistInit s.mem).2]⟩
  | .insert l key value deletef rand => do
    let list ← s.lists[l]?
    let (m, list, _) ← skiplistInsert s.mem list key value deletef rand
    some ⟨m, s.lists.set l list⟩
  | .insertWP l key ppa deletef rand => do
    let list ← s.lists[l]?
    let (m, list, _) ← skiplistInsertWP s.mem list key ppa deletef rand
    some ⟨m, s.lists.set l list⟩
  | .divide l key => do
    let list ← s.lists[l]?
    let found ← skiplistFind s.mem list key
    let target ← found
    let (m, rest, res) ← cutBehind s.mem list fun temp _ _ _ => decide (temp = target)
    some ⟨m, s.lists.set l rest ++ [res]⟩
  | .divideAll l => do
    let list ← s.lists[l]?
    let (m, rest, res) ← skiplistDivide s.mem list list.header
    some ⟨m, s.lists.set l rest ++ [res]⟩

def Sys.run (s : Sys δ) (ops : List (Op δ)) : Option (Sys δ) := ops.foldlM Sys.step s

/-! ## The specification -/

/-- What a node holds beside its key. -/
structure Entry (δ : Type) where
  value : Option (ValueSet δ)
  ppa : UInt32
  isvalid : Bool

def Snode.entry (n : Snode δ) : Entry δ := ⟨n.value, n.ppa, n.isvalid⟩

abbrev Map (δ : Type) := Key → Option (Entry δ)

def Map.empty : Map δ := fun _ => none

/-- An insert replaces the value; a new key has no address yet. -/
def Map.insert (f : Map δ) (key : Key) (value : Option (ValueSet δ)) (deletef : Bool) : Map δ :=
  update f key (some ⟨value.map ValueSet.toPieces, ((f key).map (·.ppa)).getD 0xFFFFFFFF, deletef⟩)

def Map.insertWP (f : Map δ) (key : Key) (ppa : UInt32) (deletef : Bool) : Map δ :=
  update f key (some ⟨none, ppa, deletef⟩)

def Map.upTo (f : Map δ) (key : Key) : Map δ := fun k => if keycmp k key = .gt then none else f k

def Map.above (f : Map δ) (key : Key) : Map δ := fun k => if keycmp k key = .gt then f k else none

def specStep (ms : List (Map δ)) : Op δ → List (Map δ)
  | .init => ms ++ [Map.empty]
  | .insert l key value deletef _ => ms.modify l fun f => f.insert key value deletef
  | .insertWP l key ppa deletef _ => ms.modify l fun f => f.insertWP key ppa deletef
  | .divide l key => (ms.modify l fun f => f.above key) ++ (ms[l]?.map fun f => f.upTo key).toList
  | .divideAll l => (ms.modify l fun _ => Map.empty) ++ ms[l]?.toList

def specRun (ms : List (Map δ)) (ops : List (Op δ)) : List (Map δ) := ops.foldl specStep ms

/-- The operations that are looked at: on a list that is there, with keys below `key_max`; an
insert with an address has a new key and a division a key that is there. -/
def Op.Allowed (ms : List (Map δ)) : Op δ → Prop
  | .init => True
  | .insert l key _ _ _ => l < ms.length ∧ keycmp key keyMax = .lt
  | .insertWP l key _ _ _ => keycmp key keyMax = .lt ∧ ∃ f, ms[l]? = some f ∧ f key = none
  | .divide l key => ∃ f, ms[l]? = some f ∧ (f key).isSome
  | .divideAll l => l < ms.length

/-- An insert has a value, and so has the entry that it replaces. -/
def Op.Safe (ms : List (Map δ)) : Op δ → Prop
  | .insert l key value _ _ =>
    value.isSome ∧ ∀ f e, ms[l]? = some f → f key = some e → e.value.isSome
  | _ => True

def AllowedRun (ms : List (Map δ)) : List (Op δ) → Prop
  | [] => True
  | op :: ops => op.Allowed ms ∧ AllowedRun (specStep ms op) ops

def SafeRun (ms : List (Map δ)) : List (Op δ) → Prop
  | [] => True
  | op :: ops => op.Safe ms ∧ SafeRun (specStep ms op) ops

/-! ## Lists and their maps -/

/-- A list with its nodes and what it stands for. -/
structure View (δ : Type) where
  list : Skiplist
  nodes : List Nat
  map : Map δ

def View.all (v : View δ) : List Nat := v.list.header :: v.nodes

structure Good (m : Mem δ) (v : View δ) : Prop where
  wf : Wf m v.list v.nodes
  counted : Counted m v.list v.nodes
  holds : ∀ k e, v.map k = some e ↔ ∃ n ∈ v.nodes, m.key n = k ∧ (m.node n).entry = e

def Apart (v w : View δ) : Prop := ∀ n ∈ v.all, n ∉ w.all

structure Inv (s : Sys δ) (ms : List (Map δ)) (vs : List (View δ)) : Prop where
  lists : s.lists = vs.map (·.list)
  maps : ms = vs.map (·.map)
  good : ∀ v ∈ vs, Good s.mem v
  apart : vs.Pairwise Apart

section
variable {m m' : Mem δ} {v w : View δ} {key : Key}

theorem Apart.symm (h : Apart v w) : Apart w v := fun n hn hm => h n hm hn

theorem Good.beside {own : List Nat} (G : Good m v) (B : Beside m m' own) (hd : ∀ n ∈ v.all, n ∉ own) :
    Good m' v := by
  have hnode : ∀ n ∈ v.nodes, m'.node n = m.node n := fun n hn =>
    B.node n (G.wf.alloc n (.tail _ hn)) (hd n (.tail _ hn))
  refine ⟨G.wf.beside B hd, G.counted.frame fun n hn => ?_, fun k e => ?_⟩
  · rw [Mem.key, hnode n hn]
  · rw [G.holds]
    refine exists_congr fun n => and_congr_right fun hn => ?_
    rw [Mem.key, Mem.key, hnode n hn]

theorem Good.absent (G : Good m v) (h : v.map key = none) : ∀ n ∈ v.nodes, m.key n ≠ key := by
  intro n hn hk
  have := (G.holds key _).mpr ⟨n, hn, hk, rfl⟩
  rw [h] at this
  cases this

theorem good_replaced {l r more : List (View δ)} {new : View δ}
    (hg : ∀ u ∈ l ++ v :: r, Good m u) (ha : (l ++ v :: r).Pairwise Apart) (B : Beside m m' v.all)
    (hnew : ∀ u ∈ new :: more, Good m' u ∧ ∀ n ∈ u.all, n ∈ v.all ∨ m.next ≤ n)
    (hmore : (new :: more).Pairwise Apart) :
    (∀ u ∈ l ++ new :: r ++ more, Good m' u) ∧ (l ++ new :: r ++ more).Pairwise Apart := by
  have hperm : (l ++ v :: r).Perm (v :: (l ++ r)) := perm_middle
  rw [hperm.pairwise_iff Apart.symm, pairwise_cons] at ha
  have hold : ∀ u ∈ l ++ r, Good m u := fun u hu => hg u (hperm.mem_iff.mpr (.tail _ hu))
  have hperm' : (l ++ new :: r ++ more).Perm ((new :: more) ++ (l ++ r)) := by
    rw [append_assoc, cons_append, cons_append]
    refine perm_middle.trans (.cons _ ?_)
    rw [← append_assoc]
    exact perm_append_comm
  constructor
  · intro u hu
    rcases mem_append.mp (hperm'.mem_iff.mp hu) with hu | hu
    · exact (hnew u hu).1
    · exact (hold u hu).beside B (ha.1 u hu).symm
  · rw [hperm'.pairwise_iff Apart.symm, pairwise_append]
    refine ⟨hmore, ha.2, fun u hu w hw n hn hm => ?_⟩
    rcases (hnew u hu).2 n hn with h | h
    · exact ha.1 w hw n h hm
    · exact lt_irrefl _ (lt_of_lt_of_le ((hold w hw).wf.alloc n hm) h)

/-! ## One operation on a view -/

theorem Good.inserted {n : Snode δ} {list' : Skiplist} {ns' : List Nat} (G : Good m v)
    (I : Inserted m v.list v.nodes n m' list' ns') (habs : ∀ x ∈ v.nodes, m.key x ≠ n.key) :
    Good m' ⟨list', ns', update v.map n.key (some n.entry)⟩ := by
  have hold : ∀ x ∈ v.nodes, m'.node x = m.node x := fun x hx => by
    rw [I.node, update_of_ne (ne_of_lt (G.wf.alloc x (.tail _ hx)))]
  have hnew : m'.node m.next = n := by rw [I.node, update_self]
  refine ⟨I.wf, I.counted, fun k e => ?_⟩
  simp only [I.perm.mem_iff, mem_cons, or_and_right, exists_or, exists_eq_left]
  by_cases hk : k = n.key
  · subst hk
    rw [update_self]
    constructor
    · intro h
      cases h
      exact .inl ⟨by rw [Mem.key, hnew], by rw [hnew]⟩
    · rintro (⟨-, rfl⟩ | ⟨x, hx, hxk, -⟩)
      · rw [hnew]
      · rw [Mem.key, hold x hx] at hxk
        exact absurd hxk (habs x hx)
  · rw [update_of_ne hk, G.holds]
    constructor
    · rintro ⟨x, hx, hxk, hxe⟩
      exact .inr ⟨x, hx, by rw [Mem.key, hold x hx]; exact hxk, by rw [hold x hx]; exact hxe⟩
    · rintro (⟨hxk, -⟩ | ⟨x, hx, hxk, hxe⟩)
      · rw [Mem.key, hnew] at hxk
        exact absurd hxk.symm hk
      · rw [hold x hx] at hxe
        rw [Mem.key, hold x hx] at hxk
        exact ⟨x, hx, hxk, hxe⟩

theorem Good.inserted_all {n : Snode δ} {list' : Skiplist} {ns' : List Nat} {f : Map δ}
    (I : Inserted m v.list v.nodes n m' list' ns') :
    ∀ x ∈ (⟨list', ns', f⟩ : View δ).all, x ∈ v.all ∨ m.next ≤ x := by
  intro x hx
  rcases mem_cons.mp hx with rfl | hx
  · rw [I.header]
    exact .inl mem_cons_self
  · rcases mem_cons.mp (I.perm.mem_iff.mp hx) with rfl | hx
    · exact .inr (le_rfl)
    · exact .inl (.tail _ hx)

theorem Good.setValue {n : Nat} (value : Option (ValueSet δ)) (isvalid : Bool) (G : Good m v)
    (hn : n ∈ v.nodes) :
    Good (m.setValue n value isvalid) ⟨v.list, v.nodes,
      update v.map (m.key n) (some ⟨value, (m.node n).ppa, isvalid⟩)⟩ := by
  have hself : (m.setValue n value isvalid).node n =
      { m.node n with value := value, isvalid := isvalid } := update_self ..
  have hother : ∀ x, x ≠ n → (m.setValue n value isvalid).node x = m.node x := fun x hx =>
    update_of_ne hx ..
  have hshape : ∀ x, SameShape (m.node x) ((m.setValue n value isvalid).node x) := by
    intro x
    by_cases hx : x = n
    · subst hx
      rw [hself]
      exact ⟨rfl, rfl, rfl⟩
    · exact .of_eq (hother x hx)
  refine ⟨G.wf.frame (fun x _ => hshape x) (fun _ _ => rfl) (le_rfl),
    G.counted.frame fun x _ => (hshape x).key, fun k e => ?_⟩
  by_cases hk : k = m.key n
  · subst hk
    simp only [update_self, some.injEq]
    constructor
    · rintro rfl
      exact ⟨n, hn, (hshape n).key, by rw [hself]; rfl⟩
    · rintro ⟨x, hx, hxk, hxe⟩
      have hxn : x = n := G.wf.key_inj hx hn ((hshape x).key.symm.trans hxk)
      rw [hxn, hself] at hxe
      exact hxe
  · simp only [update_of_ne hk]
    rw [G.holds]
    refine exists_congr fun x => and_congr_right fun _ => ?_
    by_cases hx : x = n
    · subst hx
      have hne : m.key x ≠ k := Ne.symm hk
      have hne' : (m.setValue x value isvalid).key x ≠ k := fun h => hne ((hshape x).key.symm.trans h)
      simp [hne, hne']
    · rw [Mem.key, Mem.key, hother x hx]

theorem beside_setValue {n : Nat} (value : Option (ValueSet δ)) (isvalid : Bool) (hn : n ∈ v.nodes) :
    Beside m (m.setValue n value isvalid) v.all where
  node x _ hx := update_of_ne (fun h => hx (by rw [h]; exact .tail _ hn)) ..
  list _ _ _ := rfl
  next := le_rfl

theorem scanList_at {header target : Nat} {pre post : List Nat} (idx length : Nat) (ht : target ∉ pre) :
    scanList m header (fun temp _ _ _ => decide (temp = target)) (pre ++ target :: post) idx length =
      (target, idx + (pre.length + 1), length + keyBytes m (pre ++ [target])) := by
  induction pre generalizing idx length with
  | nil => simp [scanList]
  | cons n pre ih =>
    rw [mem_cons, not_or] at ht
    rw [cons_append, scanList, if_neg (by simpa using Ne.symm ht.1), ih _ _ ht.2, cons_append,
      keyBytes_cons, length_cons]
    simp only [Prod.mk.injEq, true_and]
    omega

theorem Good.restrict {part : Skiplist} {ms : List Nat} {f : Map δ} {p : Key → Prop} [DecidablePred p]
    (G : Good m v) (W : Wf m' part ms) (C : Counted m' part ms)
    (hnode : ∀ n ∈ v.nodes, m'.node n = m.node n)
    (hmem : ∀ n, n ∈ ms ↔ n ∈ v.nodes ∧ p (m.key n)) (hf : ∀ k, f k = if p k then v.map k else none) :
    Good m' ⟨part, ms, f⟩ := by
  refine ⟨W, C, fun k e => ?_⟩
  simp only [hf, hmem]
  constructor
  · intro h
    by_cases hp : p k
    · rw [if_pos hp, G.holds] at h
      obtain ⟨n, hn, rfl, he⟩ := h
      exact ⟨n, ⟨hn, hp⟩, by rw [Mem.key, hnode n hn], by rw [hnode n hn, he]⟩
    · rw [if_neg hp] at h
      cases h
  · rintro ⟨n, ⟨hn, hp⟩, hk, he⟩
    rw [hnode n hn] at he
    rw [Mem.key, hnode n hn] at hk
    subst hk
    rw [if_pos hp, G.holds]
    exact ⟨n, hn, rfl, he⟩

theorem Good.divided (G : Good m v) (hk : (v.map key).isSome) :
    ∃ target m' rest res post pre, skiplistFind m v.list key = some (some target) ∧
      cutBehind m v.list (fun temp _ _ _ => decide (temp = target)) = some (m', rest, res) ∧
      Good m' ⟨rest, post, v.map.above key⟩ ∧ Good m' ⟨res, pre, v.map.upTo key⟩ ∧
      Beside m m' v.all ∧ (∀ n ∈ rest.header :: post, n ∈ v.all) ∧
      (∀ n ∈ res.header :: pre, n ∈ v.all ∨ m.next ≤ n) ∧
      ∀ n ∈ rest.header :: post, n ∉ res.header :: pre := by
  obtain ⟨e, he⟩ := isSome_iff_exists.mp hk
  obtain ⟨target, ht, rfl, -⟩ := (G.holds key e).mp he
  obtain ⟨pre, post, hns⟩ := append_of_mem ht
  obtain ⟨list, ns, f⟩ := v
  simp only at hns ht he
  subst hns
  have W := G.wf
  simp only at W
  obtain ⟨r, hr, hfind⟩ := find_spec W G.counted (W.below target ht)
  rw [(hfind target).mpr ⟨ht, rfl⟩] at hr
  have hnt : target ∉ pre := by
    have := W.tower.nodup
    rw [nodup_cons, nodup_append] at this
    exact fun h => this.2.2.2 target h target mem_cons_self rfl
  have hscan : scanList m list.header (fun temp _ _ _ => decide (temp = target))
      (pre ++ target :: post) 0 0 = (target, pre.length + 1, keyBytes m (pre ++ [target])) := by
    rw [scanList_at 0 0 hnt, zero_add, zero_add]
  obtain ⟨m', rest, res, hcut, Wr, Cr, Wp, Cp, hh, hfresh, hnode, B, -⟩ := cutBehind_spec W G.counted hscan
  have hsame : ∀ n ∈ pre ++ target :: post, m'.node n = m.node n := fun n hn =>
    hnode n (W.alloc n (.tail _ hn))
  have hle := W.upto_target
  have hgt : ∀ n ∈ post, keycmp (m.key n) (m.key target) = .gt := fun n hn =>
    W.after_target n (.tail _ hn)
  have hap := W.apart
  refine ⟨target, m', rest, res, post, pre ++ [target], hr, hcut, ?_, ?_, B, ?_, ?_, ?_⟩
  · refine G.restrict (p := fun k => keycmp k (m.key target) = .gt) Wr Cr hsame (fun n => ?_) fun k => rfl
    simp only [append_cons pre target post, mem_append (s := pre ++ [target])]
    exact ⟨fun h => ⟨.inr h, hgt n h⟩, fun h => h.1.resolve_left fun h' => hle n h' h.2⟩
  · refine G.restrict (p := fun k => ¬ keycmp k (m.key target) = .gt) Wp Cp hsame (fun n => ?_) fun k => ?_
    · simp only [append_cons pre target post, mem_append (s := pre ++ [target])]
      exact ⟨fun h => ⟨.inl h, hle n h⟩, fun h => h.1.resolve_right fun h' => h.2 (hgt n h')⟩
    · rw [ite_not]
      rfl
  · rw [hh]
    exact cons_subset_cons _ fun n hn => mem_append_right _ (.tail _ hn)
  · intro n hn
    rcases mem_cons.mp hn with rfl | hn
    · exact .inr (by rw [hfresh])
    · refine .inl (.tail _ ?_)
      rw [append_cons]
      exact mem_append_left _ hn
  · rw [hh, hfresh]
    exact fun n hn hm => hap n hm hn

end

/-! ## One step -/

section
variable {s : Sys δ} {ms : List (Map δ)} {vs : List (View δ)}

theorem Inv.locate (I : Inv s ms vs) {l : Nat} (hl : l < ms.length) :
    ∃ L v R, vs = L ++ v :: R ∧ L.length = l ∧ s.lists[l]? = some v.list ∧ ms[l]? = some v.map := by
  have hlen : l < vs.length := by rwa [I.maps, length_map] at hl
  refine ⟨vs.take l, vs[l], vs.drop (l + 1), ?_, ?_, ?_, ?_⟩
  · rw [← drop_eq_getElem_cons hlen, take_append_drop]
  · rw [length_take]
    omega
  · rw [I.lists, getElem?_map, getElem?_eq_getElem hlen]
    rfl
  · rw [I.maps, getElem?_map, getElem?_eq_getElem hlen]
    rfl

theorem modify_mid {α : Type} (g : α → α) (l r : List α) (a : α) :
    (l ++ a :: r).modify l.length g = l ++ g a :: r := by
  induction l with
  | nil => rfl
  | cons b l ih => rw [cons_append, length_cons, modify_succ_cons, ih]; rfl

theorem Inv.replaced {L R : List (View δ)} {v : View δ} (new : View δ) (more : List (View δ))
    {m' : Mem δ} {g : Map δ → Map δ} (I : Inv s ms (L ++ v :: R)) (B : Beside s.mem m' v.all)
    (hnew : ∀ u ∈ new :: more, Good m' u ∧ ∀ n ∈ u.all, n ∈ v.all ∨ s.mem.next ≤ n)
    (hmore : (new :: more).Pairwise Apart) (hg : g v.map = new.map) :
    Inv ⟨m', s.lists.set L.length new.list ++ more.map (·.list)⟩
      (ms.modify L.length g ++ more.map (·.map)) (L ++ new :: R ++ more) := by
  obtain ⟨hgood, hap⟩ := good_replaced I.good I.apart B hnew hmore
  refine ⟨?_, ?_, hgood, hap⟩
  · rw [I.lists]
    simp
  · have h := modify_mid g (L.map (·.map)) (R.map (·.map)) v.map
    rw [length_map] at h
    rw [I.maps, map_append, map_cons, h, hg]
    simp

theorem Inv.replaced_one {L R : List (View δ)} {v new : View δ} {m' : Mem δ} {g : Map δ → Map δ}
    (I : Inv s ms (L ++ v :: R)) (B : Beside s.mem m' v.all) (hgood : Good m' new)
    (hall : ∀ n ∈ new.all, n ∈ v.all ∨ s.mem.next ≤ n) (hg : g v.map = new.map) :
    Inv ⟨m', s.lists.set L.length new.list⟩ (ms.modify L.length g) (L ++ new :: R) := by
  have h := Inv.replaced new [] I B (fun u hu => by
    rw [mem_singleton.mp hu]
    exact ⟨hgood, hall⟩) (pairwise_singleton ..) hg
  simpa using h

theorem step_init (I : Inv s ms vs) :
    ∃ s' vs', s.step .init = some s' ∧ Inv s' (specStep ms .init) vs' := by
  have B : Beside s.mem (skiplistInit s.mem).1 [] := beside_alloc ..
  refine ⟨_, vs ++ [⟨(skiplistInit s.mem).2, [], Map.empty⟩], rfl, ?_, ?_, fun v hv => ?_, ?_⟩
  · rw [I.lists]
    simp
  · rw [I.maps]
    simp [specStep]
  · rcases mem_append.mp hv with hv | hv
    · exact (I.good v hv).beside B (by simp)
    · rw [mem_singleton.mp hv]
      exact ⟨init_wf _, init_counted _, fun k e => by simp [Map.empty]⟩
  · rw [pairwise_append]
    refine ⟨I.apart, pairwise_singleton .., fun v hv w hw n hn hm => ?_⟩
    rw [mem_singleton.mp hw] at hm
    rw [mem_singleton.mp hm] at hn
    exact lt_irrefl _ ((I.good v hv).wf.alloc _ hn)

section
variable {l : Nat} {key : Key} {deletef : Bool} {rand : Nat → Nat}

theorem step_insert {val : ValueSet δ} (I : Inv s ms vs) (hl : l < ms.length)
    (hkey : keycmp key keyMax = .lt)
    (hold : ∀ f e, ms[l]? = some f → f key = some e → e.value.isSome) :
    ∃ s' vs', s.step (.insert l key (some val) deletef rand) = some s' ∧
      Inv s' (specStep ms (.insert l key (some val) deletef rand)) vs' := by
  obtain ⟨L, v, R, rfl, rfl, hlist, hmap⟩ := I.locate hl
  have G := I.good v (mem_append_right _ mem_cons_self)
  rw [Sys.step, hlist]
  cases hv : v.map key with
  | none =>
    have habs := G.absent hv
    obtain ⟨m', list', ns', hins, J⟩ :=
      (insert_absent (some val) deletef rand G.wf G.counted hkey habs).2 val rfl
    refine ⟨_, _, ?_, I.replaced_one J.beside (G.inserted J habs) (Good.inserted_all J) ?_⟩
    · simp only [bind_eq_bind, bind_some, hins]
    · simp only [Map.insert, hv]
      rfl
  | some e =>
    obtain ⟨n, hn, hk, he⟩ := (G.holds key e).mp hv
    have hsome : (s.mem.node n).value.isSome := by
      have := hold v.map e hmap hv
      rwa [← he] at this
    have hins := (insert_present (some val) deletef rand G.wf hkey hn hk).2 val rfl hsome
    refine ⟨_, _, ?_, I.replaced_one (beside_setValue (some val.toPieces) deletef hn)
      (Good.setValue (some val.toPieces) deletef G hn) (fun x hx => .inl hx) ?_⟩
    · simp only [bind_eq_bind, bind_some, hins]
    · simp only [Map.insert, hv, hk, ← he]
      rfl

theorem step_insertWP {ppa : UInt32} {f : Map δ} (I : Inv s ms vs) (hkey : keycmp key keyMax = .lt)
    (hf : ms[l]? = some f) (hnone : f key = none) :
    ∃ s' vs', s.step (.insertWP l key ppa deletef rand) = some s' ∧
      Inv s' (specStep ms (.insertWP l key ppa deletef rand)) vs' := by
  obtain ⟨L, v, R, rfl, rfl, hlist, hmap⟩ := I.locate (List.getElem?_eq_some_iff.mp hf).1
  have G := I.good v (mem_append_right _ mem_cons_self)
  rw [hmap] at hf
  cases hf
  have habs := G.absent hnone
  obtain ⟨m', list', ns', hins, J⟩ := insertWP_spec ppa deletef rand G.wf G.counted hkey habs
  refine ⟨_, _, ?_, I.replaced_one J.beside (G.inserted J habs) (Good.inserted_all J) rfl⟩
  rw [Sys.step, hlist]
  simp only [bind_eq_bind, bind_some, hins]

theorem step_divide {f : Map δ} (I : Inv s ms vs) (hf : ms[l]? = some f) (hsome : (f key).isSome) :
    ∃ s' vs', s.step (.divide l key) = some s' ∧ Inv s' (specStep ms (.divide l key)) vs' := by
  obtain ⟨L, v, R, rfl, rfl, hlist, hmap⟩ := I.locate (List.getElem?_eq_some_iff.mp hf).1
  have G := I.good v (mem_append_right _ mem_cons_self)
  rw [hmap] at hf
  cases hf
  obtain ⟨target, m', rest, res, post, pre, hfind, hcut, Gr, Gp, B, hr, hp, hap⟩ := G.divided hsome
  have J := Inv.replaced ⟨rest, post, v.map.above key⟩ [⟨res, pre, v.map.upTo key⟩]
    (g := fun f => f.above key) I B (by
      intro u hu
      rcases mem_cons.mp hu with rfl | hu
      · exact ⟨Gr, fun n hn => .inl (hr n hn)⟩
      · rw [mem_singleton.mp hu]
        exact ⟨Gp, hp⟩) (by
      rw [pairwise_pair]
      exact hap) rfl
  rw [specStep, hmap]
  refine ⟨_, _, ?_, J⟩
  rw [Sys.step, hlist]
  simp only [bind_eq_bind, bind_some, hfind, hcut]
  rfl

theorem step_divideAll (I : Inv s ms vs) (hl : l < ms.length) :
    ∃ s' vs', s.step (.divideAll l) = some s' ∧ Inv s' (specStep ms (.divideAll l)) vs' := by
  obtain ⟨L, v, R, rfl, rfl, hlist, hmap⟩ := I.locate hl
  have G := I.good v (mem_append_right _ mem_cons_self)
  have B : ∀ own, Beside s.mem (skiplistInit s.mem).1 own := beside_alloc _ _
  have J := Inv.replaced ⟨(skiplistInit s.mem).2, [], Map.empty⟩ [v]
    (g := fun _ => Map.empty) I (B _) (by
      intro u hu
      rcases mem_cons.mp hu with rfl | hu
      · refine ⟨⟨init_wf _, init_counted _, fun k e => by simp [Map.empty]⟩, fun n hn => .inr ?_⟩
        rw [mem_singleton.mp hn]
        exact le_rfl
      · rw [mem_singleton.mp hu]
        exact ⟨G.beside (B []) (by simp), fun n hn => .inl hn⟩) (by
      rw [pairwise_pair]
      intro n hn hm
      rw [mem_singleton.mp hn] at hm
      exact lt_irrefl _ (G.wf.alloc _ hm)) rfl
  rw [specStep, hmap]
  refine ⟨_, _, ?_, J⟩
  rw [Sys.step, hlist]
  simp only [bind_eq_bind, bind_some, skiplistDivide, if_true]
  rfl

end

theorem step_safe {op : Op δ} (I : Inv s ms vs) (ha : op.Allowed ms) (hs : op.Safe ms) :
    ∃ s' vs', s.step op = some s' ∧ Inv s' (specStep ms op) vs' := by
  cases op with
  | init => exact step_init I
  | insert l key value deletef rand =>
    obtain ⟨val, rfl⟩ := isSome_iff_exists.mp hs.1
    exact step_insert I ha.1 ha.2 hs.2
  | insertWP l key ppa deletef rand =>
    obtain ⟨f, hf, hnone⟩ := ha.2
    exact step_insertWP I ha.1 hf hnone
  | divide l key =>
    obtain ⟨f, hf, hsome⟩ := ha
    exact step_divide I hf hsome
  | divideAll l => exact step_divideAll I ha

theorem step_stuck {op : Op δ} (I : Inv s ms vs) (ha : op.Allowed ms) (hs : ¬ op.Safe ms) :
    s.step op = none := by
  cases op with
  | insert l key value deletef rand =>
    obtain ⟨L, v, R, rfl, rfl, hlist, hmap⟩ := I.locate ha.1
    have G := I.good v (mem_append_right _ mem_cons_self)
    have hnone : skiplistInsert s.mem v.list key value deletef rand = none := by
      cases hv : v.map key with
      | none =>
        apply (insert_absent value deletef rand G.wf G.counted ha.2 (G.absent hv)).1
        by_contra hval
        refine hs ⟨isSome_iff_ne_none.mpr hval, fun f e hf he => ?_⟩
        rw [hmap] at hf
        cases hf
        rw [hv] at he
        cases he
      | some e =>
        obtain ⟨n, hn, hk, he⟩ := (G.holds key e).mp hv
        apply (insert_present value deletef rand G.wf ha.2 hn hk).1
        by_contra hval
        rw [not_or] at hval
        refine hs ⟨isSome_iff_ne_none.mpr hval.1, fun f e' hf he' => ?_⟩
        rw [hmap] at hf
        cases hf
        rw [hv] at he'
        cases he'
        rw [← he]
        exact isSome_iff_ne_none.mpr hval.2
    rw [Sys.step, hlist]
    simp only [bind_eq_bind, bind_some, hnone, bind_none]
  | init => exact absurd trivial hs
  | insertWP l key ppa deletef rand => exact absurd trivial hs
  | divide l key => exact absurd trivial hs
  | divideAll l => exact absurd trivial hs

end

/-! ## Runs -/

/-- A list with nodes `ns` stands for `f`: a search finds the entry of each key below `key_max`,
and a division at any node parts the nodes there, without the `abort()`. -/
structure ListOk (m : Mem δ) (list : Skiplist) (f : Map δ) (ns : List Nat) : Prop where
  wf : Wf m list ns
  counted : Counted m list ns
  find : ∀ key, keycmp key keyMax = .lt → ∃ r, skiplistFind m list key = some r ∧
    (∀ n, r = some n → n ∈ ns ∧ m.key n = key) ∧ (r.map fun n => (m.node n).entry) = f key
  divide : ∀ target ∈ ns, ∃ m' rest res, skiplistDivide m list target = some (m', rest, res) ∧
    Wf m' res (ns.filter fun n => keycmp (m.key n) (m.key target) ≠ .gt) ∧
    Wf m' rest (ns.filter fun n => keycmp (m.key n) (m.key target) = .gt)

structure Represents (s : Sys δ) (ms : List (Map δ)) : Prop where
  count : s.lists.length = ms.length
  lists : ∀ (l : Nat) list f, s.lists[l]? = some list → ms[l]? = some f → ∃ ns, ListOk s.mem list f ns

section
variable {m : Mem δ} {v : View δ} {s : Sys δ} {ms : List (Map δ)} {vs : List (View δ)}

theorem Good.listOk (G : Good m v) : ListOk m v.list v.map v.nodes := by
  refine ⟨G.wf, G.counted, fun key hkey => ?_, fun target ht => ?_⟩
  · obtain ⟨r, hr, hfind⟩ := find_spec G.wf G.counted hkey
    refine ⟨r, hr, fun n hn => (hfind n).mp hn, ?_⟩
    cases r with
    | none =>
      cases hv : v.map key with
      | none => rfl
      | some e =>
        obtain ⟨n, hn, hk, -⟩ := (G.holds key e).mp hv
        cases (hfind n).mpr ⟨hn, hk⟩
    | some n =>
      obtain ⟨hn, hk⟩ := (hfind n).mp rfl
      exact ((G.holds key _).mpr ⟨n, hn, hk, rfl⟩).symm
  · obtain ⟨pre, post, hns⟩ := append_of_mem ht
    have W := G.wf
    rw [hns] at W ⊢
    obtain ⟨m', rest, res, hdiv, D⟩ := divide_spec W
    have hle := W.upto_target
    have hgt : ∀ n ∈ post, keycmp (m.key n) (m.key target) = .gt := fun n hn =>
      W.after_target n (.tail _ hn)
    refine ⟨m', rest, res, hdiv, ?_, ?_⟩
    · have h1 : (pre ++ [target]).filter (fun n => decide (keycmp (m.key n) (m.key target) ≠ .gt)) =
          pre ++ [target] := filter_eq_self.mpr fun n hn => decide_eq_true (hle n hn)
      have h2 : post.filter (fun n => decide (keycmp (m.key n) (m.key target) ≠ .gt)) = [] :=
        filter_eq_nil_iff.mpr fun n hn => by simp [hgt n hn]
      rw [append_cons, filter_append, h1, h2, append_nil]
      exact D.lower
    · have h1 : (pre ++ [target]).filter (fun n => decide (keycmp (m.key n) (m.key target) = .gt)) =
          [] := filter_eq_nil_iff.mpr fun n hn => by simpa using hle n hn
      have h2 : post.filter (fun n => decide (keycmp (m.key n) (m.key target) = .gt)) = post :=
        filter_eq_self.mpr fun n hn => decide_eq_true (hgt n hn)
      rw [append_cons, filter_append, h1, h2, nil_append]
      exact D.upper

theorem Inv.represents (I : Inv s ms vs) : Represents s ms := by
  refine ⟨by rw [I.lists, I.maps, length_map, length_map], fun l list f hl hf => ?_⟩
  rw [I.lists, getElem?_map] at hl
  rw [I.maps, getElem?_map] at hf
  cases hv : vs[l]? with
  | none =>
    rw [hv] at hl
    cases hl
  | some v =>
    rw [hv] at hl hf
    cases hl
    cases hf
    exact ⟨v.nodes, (I.good v (mem_of_getElem? hv)).listOk⟩

theorem run_safe {ops : List (Op δ)} (I : Inv s ms vs) (ha : AllowedRun ms ops) (hs : SafeRun ms ops) :
    ∃ s' vs', s.run ops = some s' ∧ Inv s' (specRun ms ops) vs' := by
  induction ops generalizing s ms vs with
  | nil => exact ⟨s, vs, rfl, I⟩
  | cons op ops ih =>
    obtain ⟨s1, vs1, hstep, I1⟩ := step_safe I ha.1 hs.1
    obtain ⟨s2, vs2, hrun, I2⟩ := ih I1 ha.2 hs.2
    exact ⟨s2, vs2, by rw [Sys.run, foldlM_cons, hstep]; exact hrun, I2⟩

theorem run_stuck {ops : List (Op δ)} (I : Inv s ms vs) (ha : AllowedRun ms ops)
    (hs : ¬ SafeRun ms ops) : s.run ops = none := by
  induction ops generalizing s ms vs with
  | nil => exact absurd trivial hs
  | cons op ops ih =>
    rw [Sys.run, foldlM_cons]
    by_cases h : op.Safe ms
    · obtain ⟨s1, vs1, hstep, I1⟩ := step_safe I ha.1 h
      rw [hstep]
      exact ih I1 ha.2 fun hs' => hs ⟨h, hs'⟩
    · rw [step_stuck I ha.1 h]
      rfl

end

/-- For every sequence of inserts and divisions, with any heights from `getLevel`: every list is
well formed and stands for its map iff each insert has a value and replaces only entries that
have one. -/
theorem skiplist_represents (m : Mem δ) (ops : List (Op δ)) (ha : AllowedRun [] ops) :
    (∃ s, Sys.run ⟨m, []⟩ ops = some s ∧ Represents s (specRun [] ops)) ↔ SafeRun [] ops := by
  have I : Inv (⟨m, []⟩ : Sys δ) [] [] := ⟨rfl, rfl, by simp, .nil⟩
  constructor
  · rintro ⟨s, hrun, -⟩
    by_contra hs
    rw [run_stuck I ha hs] at hrun
    cases hrun
  · intro hs
    obtain ⟨s, vs, hrun, J⟩ := run_safe I ha hs
    exact ⟨s, hrun, J.represents⟩

/-- A memory without nodes. -/
def Mem.empty : Mem Unit := ⟨fun _ => ⟨0, [], 0, none, false, 0⟩, fun _ _ => none, 0⟩

def insertAndDivide : List (Op Unit) :=
  [.init, .insert 0 [98] (some ⟨(), 700⟩) true fun i => i + 1, .insertWP 0 [97] 7 true fun _ => 0,
    .divide 0 [97]]

theorem skiplist_represents_divided : ∃ s, Sys.run ⟨Mem.empty, []⟩ insertAndDivide = some s ∧
    Represents s (specRun [] insertAndDivide) := by
  have ha : AllowedRun [] insertAndDivide :=
    ⟨trivial, ⟨by decide, keycmp_keyMax rfl⟩, ⟨keycmp_keyMax rfl, _, rfl, by decide⟩,
      ⟨_, rfl, by decide⟩, trivial⟩
  refine (skiplist_represents _ _ ha).mpr ⟨trivial, ⟨rfl, fun f e hf he => ?_⟩, trivial, trivial, trivial⟩
  cases hf
  cases he

/-- A key that was inserted with its address is inserted again, with a value. -/
def insertOverAddress : List (Op Unit) :=
  [.init, .insertWP 0 [97] 7 true fun _ => 0, .insert 0 [97] (some ⟨(), 512⟩) true fun _ => 0]

theorem insert_over_address :
    AllowedRun [] insertOverAddress ∧ Sys.run ⟨Mem.empty, []⟩ insertOverAddress = none :=
  ⟨⟨trivial, ⟨keycmp_keyMax rfl, _, rfl, by decide⟩, ⟨by decide, keycmp_keyMax rfl⟩, trivial⟩,
    isNone_iff_eq_none.mp (by decide +kernel)⟩

end FlashDriver.Lsmtree.Skip
