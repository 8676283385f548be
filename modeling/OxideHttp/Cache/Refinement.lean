import OxideHttp.Cache
import OxideHttp.Lib.Memory
import OxideHttp.Lib.Transition

/-!
# The cache as a timed store (`src/cache.rs`)

A run of `maybe_store`, `lookup` and `purge` on one cache, with the times at which the
clock is read.  Beside it runs an unbounded memory, which every eligible response enters
and which only a purge clears: the cache stays within it.

Result: `cache_refines`, what a hit is, how many entries there are, and how one of them
may go.
-/

namespace OxideHttp
namespace Cache

/-! ## What may be stored -/

/-- A response that is stored. -/
structure Storable (lowercase : String → String) (cfg : CacheConfig) (res : JsResponse) :
    Prop where
  status : res.status.getD 200 = 200
  whole : res.streamed.getD false = false
  body : (res.body.getD []).length ≤ cfg.maxBodyBytes
  cookie : ∀ kv ∈ res.headers.getD [], lowercase kv.key ≠ "set-cookie"
  control : ∀ kv ∈ res.headers.getD [], lowercase kv.key = "cache-control" →
    optsOut (lowercase kv.value) = false

instance (lowercase : String → String) (cfg : CacheConfig) (res : JsResponse) :
    Decidable (Storable lowercase cfg res) :=
  decidable_of_iff
    (res.status.getD 200 = 200 ∧ res.streamed.getD false = false ∧
      (res.body.getD []).length ≤ cfg.maxBodyBytes ∧
        (∀ kv ∈ res.headers.getD [], lowercase kv.key ≠ "set-cookie") ∧
          ∀ kv ∈ res.headers.getD [], lowercase kv.key = "cache-control" →
            optsOut (lowercase kv.value) = false)
    ⟨fun ⟨h1, h2, h3, h4, h5⟩ => ⟨h1, h2, h3, h4, h5⟩,
      fun ⟨h1, h2, h3, h4, h5⟩ => ⟨h1, h2, h3, h4, h5⟩⟩

/-- The headers in their order, with lowercase names and without the request id. -/
def replayHeaders (lowercase : String → String) (requestIdHeader : String)
    (pairs : List KvPair) : List (String × String) :=
  (pairs.filter fun kv => lowercase kv.key != requestIdHeader).map fun kv =>
    (lowercase kv.key, kv.value)

/-- The entry of a response. -/
def entryOf (lowercase : String → String) (cfg : CacheConfig) (requestIdHeader : String)
    (now : Nat) (path : String) (res : JsResponse) : Entry :=
  { path := path
    status := res.status.getD 200
    headers := replayHeaders lowercase requestIdHeader (res.headers.getD [])
    body := res.body.getD []
    expires := now + cfg.ttl }

/-! ## Runs -/

/-- One operation, with the times at which it reads the clock. -/
inductive Op where
  | store (k path : String) (res : JsResponse) (requestIdHeader : String)
      (now sweep pick : Nat)
  | lookup (k : String) (now : Nat)
  | purge (path : Option String) (now : Nat)

/-- The first time and the last. -/
def Op.began : Op → Nat
  | .store _ _ _ _ now _ _ | .lookup _ now | .purge _ now => now

def Op.ended : Op → Nat
  | .store _ _ _ _ _ sweep _ => sweep
  | .lookup _ now | .purge _ now => now

/-- A cache, and the time. -/
structure Timed where
  store : Store
  now : Nat

def Timed.init (start : Nat) : Timed := { store := Store.empty, now := start }

section Runs

variable (lowercase : String → String) (cfg : CacheConfig)

def Op.run (s : Store) : Op → Store
  | .store k path res requestIdHeader now sweep pick =>
      maybeStore lowercase cfg requestIdHeader now sweep pick s k path res
  | .lookup k now => (Cache.lookup now s k).2
  | .purge path _ => Cache.purge s path

/-- The clock does not go back. -/
def step (s : Timed) (op : Op) : Option Timed :=
  if s.now ≤ op.began ∧ op.began ≤ op.ended then
    some { store := op.run lowercase cfg s.store, now := op.ended }
  else none

/-- What the operation does to the unbounded memory. -/
def Op.update : Op → Option (Memory.Update String Entry)
  | .store k path res requestIdHeader now _ _ =>
      if Storable lowercase cfg res then
        some (.put k (entryOf lowercase cfg requestIdHeader now path res))
      else none
  | .lookup _ _ => none
  | .purge none _ => some (.drop fun _ _ => true)
  | .purge (some p) _ => some (.drop fun _ e => e.path == p)

/-- The operation neither stores under `k` nor purges `path`. -/
def Op.Keeps (k path : String) : Op → Prop
  | .store k' _ res _ _ _ _ => k' = k → ¬ Storable lowercase cfg res
  | .lookup _ _ => True
  | .purge none _ => False
  | .purge (some p) _ => p ≠ path

/-- The hit at time `t` is the response that was stored last under `k`, unexpired and
not purged since. -/
def StoredLast (ops : List Op) (k : String) (t : Nat) (hit : Hit) : Prop :=
  ∃ before after path res requestIdHeader now sweep pick,
    ops = before ++ .store k path res requestIdHeader now sweep pick :: after ∧
      Storable lowercase cfg res ∧ t < now + cfg.ttl ∧
      hit =
        { status := 200
          headers := replayHeaders lowercase requestIdHeader (res.headers.getD [])
          body := res.body.getD [] } ∧
      ∀ op ∈ after, op.Keeps lowercase cfg k path

/-- How the step from `s` to `t` may remove the entry `e` of `k`. -/
inductive Removed (s t : Store) (k : String) (e : Entry) : Op → Prop where
  | purged (path : Option String) (now : Nat) (hpath : path = none ∨ path = some e.path) :
      Removed s t k e (.purge path now)
  | overwritten (path : String) (res : JsResponse) (requestIdHeader : String)
      (now sweep pick : Nat) (hres : Storable lowercase cfg res) :
      Removed s t k e (.store k path res requestIdHeader now sweep pick)
  /-- the store of a new key, when the cache is full of live entries -/
  | evicted (k' path : String) (res : JsResponse) (requestIdHeader : String)
      (now sweep pick : Nat) (hres : Storable lowercase cfg res) (hnew : s.get k' = none)
      (hfull : s.entries.length = cfg.maxEntries)
      (hlive : ∀ d ∈ s.entries, sweep < d.2.expires)
      (hothers : ∀ j, j ≠ k → j ≠ k' → t.get j = s.get j) :
      Removed s t k e (.store k' path res requestIdHeader now sweep pick)

end Runs

section Operations

variable {lowercase : String → String} {cfg : CacheConfig} {s : Store} {k : String}
  {e : Entry} {res : JsResponse}

/-- The two ways of `storedHeaders`. -/
theorem storedHeaders_eq_some {requestIdHeader : String} {pairs : List KvPair}
    {headers : List (String × String)} :
    storedHeaders lowercase requestIdHeader pairs = some headers ↔
      (∀ kv ∈ pairs, lowercase kv.key ≠ "set-cookie" ∧
          (lowercase kv.key = "cache-control" → optsOut (lowercase kv.value) = false)) ∧
        headers = replayHeaders lowercase requestIdHeader pairs := by
  induction pairs generalizing headers with
  | nil =>
      exact ⟨fun h => ⟨nofun, (Option.some.inj h).symm⟩, fun h => congrArg some h.2.symm⟩
  | cons kv pairs ih =>
      simp only [storedHeaders, List.forall_mem_cons]
      split
      case isTrue hcookie => simp [hcookie]
      case isFalse hcookie =>
        split
        case isTrue hcontrol =>
          simp only [Bool.and_eq_true, decide_eq_true_eq] at hcontrol
          simp [hcontrol]
        case isFalse hcontrol =>
          have hallowed : lowercase kv.key = "cache-control" →
              optsOut (lowercase kv.value) = false := by simpa using hcontrol
          split
          case isTrue hid =>
            have hskip : replayHeaders lowercase requestIdHeader (kv :: pairs) =
                replayHeaders lowercase requestIdHeader pairs := by
              simp [replayHeaders, hid]
            rw [ih, hskip]
            exact ⟨fun ⟨hpairs, heq⟩ => ⟨⟨⟨hcookie, hallowed⟩, hpairs⟩, heq⟩,
              fun ⟨⟨_, hpairs⟩, heq⟩ => ⟨hpairs, heq⟩⟩
          case isFalse hid =>
            simp only [Option.map_eq_some_iff, ih]
            constructor
            · rintro ⟨rest, ⟨hpairs, rfl⟩, rfl⟩
              exact ⟨⟨⟨hcookie, hallowed⟩, hpairs⟩, by simp [replayHeaders, hid]⟩
            · rintro ⟨⟨_, hpairs⟩, rfl⟩
              exact ⟨_, ⟨hpairs, rfl⟩, by simp [replayHeaders, hid]⟩

/-- `maybe_store` of a response that may be stored, and of any other. -/
theorem maybeStore_eq (requestIdHeader : String) (now sweep pick : Nat) (s : Store)
    (k path : String) (res : JsResponse) :
    maybeStore lowercase cfg requestIdHeader now sweep pick s k path res =
      if Storable lowercase cfg res then
        (makeRoom cfg sweep pick s k).insert k
          (entryOf lowercase cfg requestIdHeader now path res)
      else s := by
  unfold maybeStore
  split
  case isTrue hplain =>
    have hno : ¬ Storable lowercase cfg res := by
      rintro ⟨hstatus, hwhole, _, _, _⟩
      simp [hstatus, hwhole] at hplain
    rw [if_neg hno]
  case isFalse hplain =>
    split
    case isTrue hbody =>
      have hno : ¬ Storable lowercase cfg res := fun h => Nat.not_lt.2 h.body hbody
      rw [if_neg hno]
    case isFalse hbody =>
      simp only [not_or, not_not, Bool.not_eq_true] at hplain
      split
      case h_1 hnone =>
        have hno : ¬ Storable lowercase cfg res := by
          intro h
          have hsome : storedHeaders lowercase requestIdHeader (res.headers.getD []) =
              some (replayHeaders lowercase requestIdHeader (res.headers.getD [])) :=
            storedHeaders_eq_some.2 ⟨fun kv hkv => ⟨h.cookie kv hkv, h.control kv hkv⟩, rfl⟩
          rw [hnone] at hsome
          cases hsome
        rw [if_neg hno]
      case h_2 headers hsome =>
        obtain ⟨hpairs, rfl⟩ := storedHeaders_eq_some.1 hsome
        have hyes : Storable lowercase cfg res :=
          ⟨hplain.1, hplain.2, Nat.le_of_not_lt hbody, fun kv hkv => (hpairs kv hkv).1,
            fun kv hkv => (hpairs kv hkv).2⟩
        rw [if_pos hyes]
        rfl

/-! ## Room for an entry -/

/-- Room is made only for a new key, in a full cache. -/
theorem makeRoom_of_held (sweep pick : Nat) (h : s.get k ≠ none) :
    makeRoom cfg sweep pick s k = s := by
  unfold makeRoom
  rw [if_neg]
  rintro ⟨_, hnone⟩
  exact h (Option.isNone_iff_eq_none.1 hnone)

theorem makeRoom_sub (sweep pick : Nat) {d : String × Entry}
    (hd : d ∈ (makeRoom cfg sweep pick s k).entries) : d ∈ s.entries := by
  unfold makeRoom at hd
  split at hd
  case isFalse => exact hd
  case isTrue =>
    dsimp only at hd
    split at hd
    case isFalse => exact (Store.mem_retain.1 hd).1
    case isTrue =>
      split at hd
      case h_1 => exact (Store.mem_retain.1 hd).1
      case h_2 => exact (Store.mem_retain.1 (Store.mem_remove.1 hd).1).1

/-- There is room for one more entry. -/
theorem length_makeRoom (hcap : 1 ≤ cfg.maxEntries) (sweep pick : Nat)
    (h : s.entries.length ≤ cfg.maxEntries) (hnew : s.get k = none) :
    (makeRoom cfg sweep pick s k).entries.length < cfg.maxEntries := by
  unfold makeRoom
  split
  case isFalse hroom =>
    rw [hnew] at hroom
    simpa using hroom
  case isTrue =>
    dsimp only
    have hlive := Store.length_retain_le (s := s) fun d => sweep < d.2.expires
    split
    case isFalse hroom => exact Nat.lt_of_not_le hroom
    case isTrue hfull =>
      split
      case h_1 hnone =>
        rw [List.getElem?_eq_none_iff] at hnone
        exact absurd (Nat.mod_lt pick (hcap.trans hfull)) (Nat.not_lt.2 hnone)
      case h_2 victim hvictim =>
        have hmem := List.mem_of_getElem? hvictim
        have hless := Store.length_remove (k := victim.1) (e := victim.2) hmem
        omega

/-- An entry that is dropped to make room: everything was live, and the rest stays. -/
theorem makeRoom_evicts (sweep pick : Nat) (h : s.entries.length ≤ cfg.maxEntries)
    (he : (k, e) ∈ s.entries) (hlive : sweep < e.expires) {k' : String}
    (hgone : (k, e) ∉ (makeRoom cfg sweep pick s k').entries) :
    s.get k' = none ∧ s.entries.length = cfg.maxEntries ∧
      (∀ d ∈ s.entries, sweep < d.2.expires) ∧
        (makeRoom cfg sweep pick s k').entries = (s.remove k).entries := by
  unfold makeRoom at hgone ⊢
  split at hgone
  case isFalse => exact absurd he hgone
  case isTrue hfull =>
    rw [if_pos hfull]
    obtain ⟨hlength, hnew⟩ := hfull
    dsimp only at hgone ⊢
    have hkept : (k, e) ∈ (s.retain fun d => sweep < d.2.expires).entries :=
      Store.mem_retain.2 ⟨he, by simpa using hlive⟩
    split at hgone
    case isFalse => exact absurd hkept hgone
    case isTrue hstill =>
      rw [if_pos hstill]
      have hsame : (s.retain fun d => sweep < d.2.expires).entries.length = s.entries.length :=
        Nat.le_antisymm (Store.length_retain_le _) (h.trans hstill)
      have hall : ∀ d ∈ s.entries, sweep < d.2.expires := by
        intro d hd
        simpa using List.length_filter_eq_length_iff.1 hsame d hd
      have hretain : (s.retain fun d => sweep < d.2.expires).entries = s.entries :=
        List.filter_eq_self.2 fun d hd => by simpa using hall d hd
      refine ⟨Option.isNone_iff_eq_none.1 hnew, Nat.le_antisymm h hlength, hall, ?_⟩
      split at hgone
      case h_1 => exact absurd hkept hgone
      case h_2 victim hvictim =>
        have hkey : victim.1 = k := by
          by_contra hother
          exact hgone (Store.mem_remove.2 ⟨hkept, fun hk => hother hk.symm⟩)
        simp only [Store.remove, Store.retain, hkey] at hretain ⊢
        rw [hretain]

theorem length_run (hcap : 1 ≤ cfg.maxEntries) (op : Op)
    (h : s.entries.length ≤ cfg.maxEntries) :
    (op.run lowercase cfg s).entries.length ≤ cfg.maxEntries := by
  cases op with
  | store k path res requestIdHeader now sweep pick =>
      rw [Op.run, maybeStore_eq]
      split
      case isFalse => exact h
      case isTrue =>
        rw [Store.length_insert]
        cases hget : s.get k with
        | none =>
            have hroom := length_makeRoom hcap sweep pick h hget
            have hle := Store.length_retain_le (s := makeRoom cfg sweep pick s k)
              fun d => d.1 != k
            exact hle.trans_lt hroom
        | some e =>
            rw [makeRoom_of_held sweep pick (by simp [hget])]
            have hless := Store.length_remove (Store.get_eq_some_iff.1 hget)
            omega
  | lookup k now =>
      rw [Op.run, lookup]
      split
      case h_1 => exact h
      case h_2 =>
        split
        case isTrue => exact h
        case isFalse => exact (Store.length_retain_le _).trans h
  | purge path now =>
      cases path with
      | none => exact Nat.zero_le _
      | some p => exact (Store.length_retain_le _).trans h

/-! ## The cache within the memory -/

theorem lookup_sub (now : Nat) {d : String × Entry} (hd : d ∈ (lookup now s k).2.entries) :
    d ∈ s.entries := by
  unfold lookup at hd
  split at hd
  case h_1 => exact hd
  case h_2 =>
    split at hd
    case isTrue => exact hd
    case isFalse => exact (Store.mem_remove.1 hd).1

theorem get_sub {t : Store} (hsub : ∀ d ∈ t.entries, d ∈ s.entries) (j : String) (a : Entry)
    (h : t.get j = some a) : s.get j = some a :=
  Store.get_eq_some_iff.2 (hsub _ (Store.get_eq_some_iff.1 h))

/-- An operation that the memory does not see forgets at most. -/
theorem within_skip {m : String → Option Entry} (op : Op)
    (h : Memory.Within s.get m) (hop : op.update lowercase cfg = none) :
    Memory.Within (op.run lowercase cfg s).get m := by
  cases op with
  | store k path res requestIdHeader now sweep pick =>
      rw [Op.run, maybeStore_eq]
      split
      case isFalse => exact h
      case isTrue hres => simp [Op.update, hres] at hop
  | lookup k now => exact h.shrink (get_sub fun d hd => lookup_sub now hd)
  | purge path now => cases path <;> cases hop

theorem within_update {m : String → Option Entry} {u : Memory.Update String Entry} (op : Op)
    (h : Memory.Within s.get m) (hop : op.update lowercase cfg = some u) :
    Memory.Within (op.run lowercase cfg s).get (Memory.apply m u) := by
  refine h.apply fun j a hj => ?_
  have hmem := Store.get_eq_some_iff.1 hj
  cases op with
  | store k path res requestIdHeader now sweep pick =>
      simp only [Op.update, Option.ite_none_right_eq_some, Option.some.injEq] at hop
      obtain ⟨hres, rfl⟩ := hop
      rw [Op.run, maybeStore_eq, if_pos hres, Store.mem_insert] at hmem
      rcases hmem with hnew | ⟨hold, hne⟩
      · obtain ⟨rfl, rfl⟩ := Prod.mk.injEq .. ▸ hnew
        exact Or.inl rfl
      · exact Or.inr ⟨Store.get_eq_some_iff.2 (makeRoom_sub sweep pick hold), Ne.symm hne⟩
  | lookup k now => cases hop
  | purge path now =>
      cases path with
      | none => cases hmem
      | some p =>
          obtain rfl := Option.some.inj hop
          obtain ⟨hold, hpath⟩ := Store.mem_retain.1 hmem
          exact Or.inr ⟨Store.get_eq_some_iff.2 hold, by simpa [Memory.Update.Spares] using hpath⟩

/-- What spares an entry in the memory keeps it in the sense of the operations. -/
theorem keeps_of_spares (op : Op)
    (h : ∀ u, op.update lowercase cfg = some u → u.Spares k e) :
    op.Keeps lowercase cfg k e.path := by
  cases op with
  | store k' path res requestIdHeader now sweep pick =>
      intro hk hres
      exact h _ (if_pos hres) hk
  | lookup k' now => trivial
  | purge path now =>
      cases path with
      | none => exact Bool.noConfusion (h _ rfl)
      | some p =>
          have hspares : (e.path == p) = false := h _ rfl
          exact fun hp => absurd hp.symm (by simpa using hspares)

theorem storedLast_of_replay {ops : List Op} {t : Nat}
    (h : Memory.replay (ops.filterMap (Op.update lowercase cfg)) k = some e)
    (ht : t < e.expires) :
    StoredLast lowercase cfg ops k t
      { status := e.status, headers := e.headers, body := e.body } := by
  obtain ⟨us, vs, hops, hspares⟩ := Memory.replay_eq_some_iff.1 h
  obtain ⟨before, rest, rfl, _, hrest⟩ := List.filterMap_eq_append_iff.1 hops
  obtain ⟨skipped, op, after, rfl, _, hop, hafter⟩ := List.filterMap_eq_cons_iff.1 hrest
  cases op with
  | lookup k' now => cases hop
  | purge path now => cases path <;> cases hop
  | store k' path res requestIdHeader now sweep pick =>
      simp only [Op.update, Option.ite_none_right_eq_some, Option.some.injEq,
        Memory.Update.put.injEq] at hop
      obtain ⟨hres, rfl, rfl⟩ := hop
      refine ⟨before ++ skipped, after, path, res, requestIdHeader, now, sweep, pick,
        by simp, hres, ht, ?_, fun op hmem => ?_⟩
      · simp [entryOf, hres.status]
      · refine keeps_of_spares (e := entryOf lowercase cfg requestIdHeader now path res) op
          fun u hu => hspares u ?_
        rw [← hafter]
        exact List.mem_filterMap.2 ⟨op, hmem, hu⟩

/-! ## How an entry goes -/

/-- A live entry that is no longer there was purged, overwritten, or evicted. -/
theorem removed_of_gone (op : Op) (hlength : s.entries.length ≤ cfg.maxEntries)
    (he : s.get k = some e) (hlive : op.ended < e.expires)
    (hgone : (op.run lowercase cfg s).get k ≠ some e) :
    Removed lowercase cfg s (op.run lowercase cfg s) k e op := by
  have hmem := Store.get_eq_some_iff.1 he
  have hout : (k, e) ∉ (op.run lowercase cfg s).entries :=
    fun h => hgone (Store.get_eq_some_iff.2 h)
  cases op with
  | store k' path res requestIdHeader now sweep pick =>
      simp only [Op.run, maybeStore_eq] at hout ⊢
      split at hout
      case isFalse => exact absurd hmem hout
      case isTrue hres =>
        rw [if_pos hres]
        by_cases hk : k = k'
        · subst hk
          exact .overwritten path res requestIdHeader now sweep pick hres
        · have hroom : (k, e) ∉ (makeRoom cfg sweep pick s k').entries :=
            fun h => hout (Store.mem_insert.2 (Or.inr ⟨h, hk⟩))
          obtain ⟨hnew, hfull, hall, hrest⟩ :=
            makeRoom_evicts sweep pick hlength hmem hlive hroom
          refine .evicted k' path res requestIdHeader now sweep pick hres hnew hfull hall
            fun j hj hj' => Option.ext fun a => ?_
          rw [Store.get_eq_some_iff, Store.get_eq_some_iff, Store.mem_insert, hrest,
            Store.mem_remove]
          simp [hj, hj']
  | lookup k' now =>
      refine absurd ?_ hout
      simp only [Op.run, lookup]
      split
      case h_1 => exact hmem
      case h_2 e' he' =>
        split
        case isTrue => exact hmem
        case isFalse hdead =>
          refine Store.mem_remove.2 ⟨hmem, fun hk => hdead ?_⟩
          obtain rfl : k = k' := hk
          obtain rfl := Option.some.inj (he.symm.trans he')
          exact hlive
  | purge path now =>
      refine .purged path now ?_
      cases path with
      | none => exact Or.inl rfl
      | some p =>
          refine Or.inr (congrArg some ?_)
          by_contra hp
          exact hout (Store.mem_retain.2 ⟨hmem, by simpa using Ne.symm hp⟩)

theorem step_eq {s t : Timed} {op : Op} (h : step lowercase cfg s op = some t) :
    t.store = op.run lowercase cfg s.store := by
  simp only [step, Option.ite_none_right_eq_some, Option.some.injEq] at h
  rw [← h.2]

/-- The simulation: the cache holds nothing that the memory does not. -/
theorem within_replay {start : Nat} {ops : List Op} {s : Timed}
    (hrun : Transition.run (step lowercase cfg) (Timed.init start) ops = some s) :
    Memory.Within s.store.get (Memory.replay (ops.filterMap (Op.update lowercase cfg))) := by
  obtain ⟨m, hm, hwithin⟩ : ∃ m, Transition.run (fun m u => some (Memory.apply m u))
      (fun _ => none) (ops.filterMap (Op.update lowercase cfg)) = some m ∧
        Memory.Within s.store.get m := by
    refine Transition.run_simulates (fun (s : Timed) m => Memory.Within s.store.get m)
      (Op.update lowercase cfg) ?_ ?_ ?_ hrun
    · intro s op t m hs hstep hop
      rw [step_eq hstep]
      exact within_skip op hs hop
    · intro s op t m u hs hstep hop
      refine ⟨_, rfl, ?_⟩
      rw [step_eq hstep]
      exact within_update op hs hop
    · intro k e h
      cases h
  rw [Transition.run_of_total] at hm
  rwa [Memory.replay, Option.some.inj hm]

theorem length_of_run (hcap : 1 ≤ cfg.maxEntries) {start : Nat} {ops : List Op} {s : Timed}
    (hrun : Transition.run (step lowercase cfg) (Timed.init start) ops = some s) :
    s.store.entries.length ≤ cfg.maxEntries := by
  refine Transition.run_invariant (I := fun s => s.store.entries.length ≤ cfg.maxEntries)
    (fun s op t hs hstep => ?_) (Nat.zero_le _) hrun
  rw [step_eq hstep]
  exact length_run hcap op hs

end Operations

/--
Over every run on one cache: the entries never exceed the cap; a hit is the response
that was stored last under its key, unexpired and not purged since; and a live entry
goes only by a purge, by a store under its key, or as the one entry that makes room in
a full cache of live entries.
-/
theorem cache_refines (lowercase : String → String) (cfg : CacheConfig)
    (hcap : 1 ≤ cfg.maxEntries) (start : Nat) (ops : List Op) (s : Timed)
    (hrun : Transition.run (step lowercase cfg) (Timed.init start) ops = some s) :
    s.store.entries.length ≤ cfg.maxEntries ∧
      (∀ k t hit, (lookup t s.store k).1 = some hit →
        StoredLast lowercase cfg ops k t hit) ∧
      ∀ op u, step lowercase cfg s op = some u → ∀ k e, s.store.get k = some e →
        op.ended < e.expires → u.store.get k ≠ some e →
          Removed lowercase cfg s.store u.store k e op := by
  have hlength := length_of_run hcap hrun
  refine ⟨hlength, fun k t hit hhit => ?_, fun op u hstep k e he hlive hgone => ?_⟩
  · obtain ⟨e, he, ht, rfl⟩ := lookup_eq_some_iff.1 hhit
    exact storedLast_of_replay (within_replay hrun k e he) ht
  · rw [step_eq hstep] at hgone ⊢
    exact removed_of_gone op hlength he hlive hgone

/-- A cache of one entry. -/
def smallCache : CacheConfig := { ttl := 1000, vary := [], maxEntries := 1, maxBodyBytes := 16 }

/-- A response of one byte. -/
def oneByte : JsResponse :=
  { status := none
    headers := some [{ key := "X-Request-Id", value := "7" }, { key := "ETag", value := "a" }]
    body := some [120]
    streamed := none }

/-- A response is stored, looked up, and evicted by another. -/
def turnover : List Op :=
  [.store "a" "/a" oneByte "x-request-id" 0 0 0, .lookup "a" 5,
    .store "b" "/b" oneByte "x-request-id" 6 7 0]

theorem cache_refines_turnover :
    ∃ s, Transition.run (step (fun n => String.ofList (lower n.toList)) smallCache)
        (Timed.init 0) turnover = some s ∧
      s.store.entries.length ≤ 1 ∧
        StoredLast (fun n => String.ofList (lower n.toList)) smallCache turnover "b" 9
          { status := 200, headers := [("etag", "a")], body := [120] } := by
  refine ⟨_, rfl, ?_⟩
  have hrefines := cache_refines (fun n => String.ofList (lower n.toList)) smallCache
    (Nat.le_refl 1) 0 turnover _ rfl
  exact ⟨hrefines.1, hrefines.2.1 "b" 9 _ (by decide)⟩

end Cache
end OxideHttp
