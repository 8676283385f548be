import OxideHttp.Metrics

/-!
# Scrapes of a running server (`src/metrics.rs`: `encode`)

A scrape loads the atomics one after another while requests finish, so that it sees some of
them half counted: `request_finished` bumps the bucket before the count, and `encode` loads the
buckets before the count.  The atomics are taken in one order for all threads.

Results.
* `scrape_histogram`: the buckets of a scrape never go down and have everything that was counted
  when the scrape came; they are above its count at most by the requests that were half counted
  at one moment since.
-/

namespace OxideHttp
namespace Metrics

open Counters Transition

/-- The request is in its bucket and not yet in the count. -/
def isHalfCounted {ν : Type} (c : Counters.Call Cell ν) : Bool :=
  (c.done.any fun a => match a.1 with | .durationBuckets _ => true | _ => false) &&
    c.todo.any fun a => a.1 = .durationCount

def halfCounted {ν : Type} (s : Counters.State Cell ν) : Nat := s.calls.countP isHalfCounted

/-! ## Words and integers -/

theorem mapAdds_adds {μ : Type} [Ring μ] (op : Op) :
    mapAdds (Int.castAddHom μ) op.adds = op.adds := by
  cases op with
  | requestFinished method status elapsed =>
      rw [Op.adds, Op.adds]
      generalize elapsed / 1000 = micros
      cases bucketOf elapsed <;> simp [mapAdds]
  | connOpened | connClosed | requestStarted | addRequestBytes | addResponseBytes | cacheHit
  | cacheMiss => simp [Op.adds, mapAdds]

theorem map_label {μ : Type} [Ring μ] :
    Counters.Label.map (Int.castAddHom μ) ∘ Event.label = Event.label := by
  funext e
  cases e with
  | call op => exact congrArg Counters.Label.call (mapAdds_adds op)
  | add | scrape | load => rfl

/-- A run of the registry is the image of a run over the integers. -/
theorem exists_integers {es : List Event} {t : Registry} (hrun : runEvents es = some t) :
    ∃ z : Counters.State Cell ℤ, run Counters.step State.init (es.map Event.label) = some z ∧
      z.map (Int.castAddHom (BitVec 64)) = t := by
  have hmap := run_map (κ := Cell) (Int.castAddHom (BitVec 64)) (es.map Event.label)
  rw [List.map_map, map_label] at hmap
  rw [runEvents, hmap] at hrun
  exact Option.map_eq_some_iff.1 hrun

/-- The cells of the histogram. -/
def isHistogram : Cell → Bool
  | .durationBuckets _ | .durationCount => true
  | _ => false

theorem grows_histogram {k : Cell} (hk : isHistogram k = true) (es : List Event) :
    Grows k (es.map (Event.label (ν := ℤ))) := by
  intro adds hadds a ha hak
  rw [callsOf_label] at hadds
  obtain ⟨op, -, rfl⟩ := List.mem_map.1 hadds
  subst hak
  cases op with
  | requestFinished method status elapsed =>
      simp only [Op.adds, List.cons_append, List.mem_cons, List.mem_append, List.mem_map,
        List.not_mem_nil, or_false] at ha
      rcases ha with rfl | rfl | ⟨i, -, rfl⟩ | rfl | rfl
      · cases hk
      · exact zero_le_one
      · exact zero_le_one
      · cases hk
      · exact zero_le_one
  | connOpened | connClosed | requestStarted | addRequestBytes | addResponseBytes | cacheHit
  | cacheMiss =>
      obtain rfl := List.mem_singleton.1 ha
      cases hk

/-! ## Half counted -/

theorem amount_eq_zero {ν : Type} [AddMonoid ν] {k : Cell} {adds : List (Cell × ν)}
    (h : ∀ a ∈ adds, a.1 ≠ k) : amount k adds = 0 := by
  refine List.sum_eq_zero fun x hx => ?_
  obtain ⟨a, ha, rfl⟩ := List.mem_map.1 hx
  rw [if_neg (h a ha)]

theorem cumulative_add {ν : Type} [AddCommMonoid ν] (f g : Cell → ν) (i : Fin 12) :
    cumulative (fun k => f k + g k) i = cumulative f i + cumulative g i := by
  simp only [cumulative, List.sum_map_add]

theorem cumulative_le {f g : Cell → ℤ} (h : ∀ j, f (.durationBuckets j) ≤ g (.durationBuckets j))
    (i : Fin 12) : cumulative f i ≤ cumulative g i :=
  List.sum_le_sum fun j _ => h j

theorem cumulative_nonneg {f : Cell → ℤ} (h : ∀ j, 0 ≤ f (.durationBuckets j)) (i : Fin 12) :
    0 ≤ cumulative f i := by
  refine List.sum_nonneg fun x hx => ?_
  obtain ⟨j, -, rfl⟩ := List.mem_map.1 hx
  exact h j

theorem cumulative_mono {f : Cell → ℤ} (h : ∀ j, 0 ≤ f (.durationBuckets j)) {i i' : Fin 12}
    (hii : i ≤ i') : cumulative f i ≤ cumulative f i' := by
  have hle : (i : Nat) + 1 ≤ i' + 1 := by omega
  refine ((List.take_sublist_take_left hle).map _).sum_le_sum fun x hx => ?_
  obtain ⟨j, -, rfl⟩ := List.mem_map.1 hx
  exact h j

/-- A call of the registry that is cut in two adds nothing negative to the histogram. -/
theorem part_nonneg {op : Op} {done todo : List (Cell × ℤ)} (h : done ++ todo = op.adds)
    {k : Cell} (hk : isHistogram k = true) : 0 ≤ amount k done ∧ 0 ≤ amount k todo := by
  have hgrows := grows_histogram hk [.call op] op.adds (by
    rw [callsOf_label]
    exact List.mem_singleton_self _)
  rw [← h] at hgrows
  exact ⟨amount_nonneg fun a ha => hgrows a (List.mem_append_left _ ha),
    amount_nonneg fun a ha => hgrows a (List.mem_append_right _ ha)⟩

/-- The bucket of a call is ahead of its count only while the call is half counted. -/
theorem part_le {op : Op} {c : Counters.Call Cell ℤ} (h : c.adds = op.adds) (i : Fin 12) :
    cumulative (fun k => amount k c.done) i ≤
      amount .durationCount c.done + if isHalfCounted c then 1 else 0 := by
  have hall : cumulative (fun k => amount k c.done) i +
      cumulative (fun k => amount k c.todo) i = if op.within (BUCKETS i) then 1 else 0 := by
    rw [← cumulative_add, ← cumulative_adds op i, ← h, Call.adds]
    simp only [amount_append]
  have hcount : amount .durationCount c.done + amount .durationCount c.todo =
      if op.isFinished then (1 : ℤ) else 0 := by
    rw [← amount_append, ← amount_count op, ← h, Call.adds]
  have hwithin : (if op.within (BUCKETS i) then (1 : ℤ) else 0) ≤
      if op.isFinished then 1 else 0 := by
    cases op <;> simp [Op.within, Op.isFinished]
    split <;> decide
  have hrest : 0 ≤ cumulative (fun k => amount k c.todo) i :=
    cumulative_nonneg (fun j => (part_nonneg h rfl).2) i
  have hdone := (part_nonneg h (k := .durationCount) rfl).1
  by_cases hhalf : isHalfCounted c = true
  · rw [if_pos hhalf]
    have hone : (if op.isFinished then (1 : ℤ) else 0) ≤ 1 := by split <;> decide
    omega
  · rw [if_neg hhalf]
    rw [isHalfCounted, Bool.and_eq_true, not_and_or] at hhalf
    rcases hhalf with hbucket | htodo
    · -- it has not come to its bucket
      have hzero : cumulative (fun k => amount k c.done) i = 0 := by
        have hnone (j : Fin 12) : amount (.durationBuckets j) c.done = 0 := by
          refine amount_eq_zero fun a ha hak => hbucket (List.any_eq_true.2 ⟨a, ha, ?_⟩)
          rw [hak]
        simp only [cumulative, hnone, List.map_const', List.sum_replicate]
        exact nsmul_zero _
      omega
    · -- it is done with its count
      have hzero : amount .durationCount c.todo = 0 := by
        refine amount_eq_zero fun a ha hak => htodo (List.any_eq_true.2 ⟨a, ha, ?_⟩)
        exact decide_eq_true hak
      omega

/-- What is half counted accounts for what the buckets have and the count has not. -/
theorem cells_le {es : List Event} {z : Counters.State Cell ℤ}
    (hrun : run Counters.step State.init (es.map Event.label) = some z) (i : Fin 12) :
    cumulative z.cells i ≤ z.cells .durationCount + halfCounted z := by
  have hcells := run_cells hrun
  have hall : ∀ c ∈ z.calls, ∃ op : Op, c.adds = op.adds := by
    intro c hc
    have hmem : c.adds ∈ callsOf (es.map (Event.label (ν := ℤ))) :=
      run_calls hrun ▸ List.mem_map_of_mem hc
    rw [callsOf_label] at hmem
    obtain ⟨op, -, hop⟩ := List.mem_map.1 hmem
    exact ⟨op, hop.symm⟩
  rw [funext hcells, cumulative_sum, halfCounted, ← sum_ite_eq_countP (ν := ℤ) isHalfCounted,
    ← List.sum_map_add]
  refine List.sum_le_sum fun c hc => ?_
  obtain ⟨op, hop⟩ := hall c hc
  exact part_le hop i

theorem cells_le_count {es : List Event} {z : Counters.State Cell ℤ}
    (hrun : run Counters.step State.init (es.map Event.label) = some z) :
    z.cells .durationCount ≤ ((opsOf es).countP Op.isFinished : Nat) := by
  have hle := cells_le_calls (grows_histogram (k := .durationCount) rfl es) hrun
  rw [callsOf_label, List.map_map] at hle
  refine hle.trans_eq ?_
  rw [← sum_ite_eq_countP (ν := ℤ)]
  exact congrArg List.sum (List.map_congr_left fun op _ => amount_count op)

/-- The buckets are within what has finished. -/
theorem cumulative_le_count {es : List Event} {z : Counters.State Cell ℤ}
    (hrun : run Counters.step State.init (es.map Event.label) = some z) (i : Fin 12) :
    cumulative z.cells i ≤ ((opsOf es).countP Op.isFinished : Nat) := by
  have hle (j : Fin 12) : z.cells (.durationBuckets j) ≤
      ((opsOf es).map fun op => amount (.durationBuckets j) (op.adds : List _)).sum := by
    have hcell := cells_le_calls (grows_histogram (k := .durationBuckets j) rfl es) hrun
    rwa [callsOf_label, List.map_map] at hcell
  calc cumulative z.cells i
      ≤ cumulative (fun k => ((opsOf es).map fun op => amount k (op.adds : List _)).sum) i :=
        cumulative_le hle i
    _ = ((opsOf es).countP (Op.within (BUCKETS i)) : Nat) := by
        rw [cumulative_sum]
        simp only [cumulative_adds]
        exact sum_ite_eq_countP _ _
    _ ≤ ((opsOf es).countP Op.isFinished : Nat) := by
        refine Int.ofNat_le.2 (List.countP_mono_left fun op _ hop => ?_)
        cases op with
        | requestFinished => rfl
        | connOpened | connClosed | requestStarted | addRequestBytes | addResponseBytes
        | cacheHit | cacheMiss => cases hop

/-! ## What a scrape has -/

theorem lookup_some {β : Type} {seen : List (Cell × β)} {k : Cell} (h : k ∈ seen.map Prod.fst) :
    ∃ v, seen.lookup k = some v ∧ (k, v) ∈ seen := by
  obtain ⟨a, ha, rfl⟩ := List.mem_map.1 h
  obtain ⟨v, hv⟩ := Option.isSome_iff_exists.1
    (List.lookup_isSome_iff.2 ⟨a, ha, beq_self_eq_true a.1⟩)
  obtain ⟨pre, post, hseen, -⟩ := List.lookup_eq_some_iff.1 hv
  exact ⟨v, hv, hseen ▸ List.mem_append_right _ List.mem_cons_self⟩

theorem value_map (r : Counters.Reader Cell ℤ) (k : Cell) :
    (r.map (Int.castAddHom (BitVec 64))).value k = ((r.value k : ℤ) : BitVec 64) := by
  obtain ⟨todo, seen⟩ := r
  rw [Reader.value, Reader.value, Reader.map]
  induction seen with
  | nil => simp [mapAdds]
  | cons a seen ih =>
      obtain ⟨k', v⟩ := a
      simp only [mapAdds, List.map_cons, List.lookup_cons] at ih ⊢
      cases k == k' with
      | true => rfl
      | false => exact ih

theorem cumulative_cast (f : Cell → ℤ) (i : Fin 12) :
    cumulative (fun k => ((f k : ℤ) : BitVec 64)) i = ((cumulative f i : ℤ) : BitVec 64) := by
  rw [cumulative, cumulative]
  refine .trans ?_ (map_list_sum (Int.castAddHom (BitVec 64)) _).symm
  rw [List.map_map]
  rfl

theorem toNat_intCast {m : ℤ} (h0 : 0 ≤ m) (hlt : m < 2 ^ 64) :
    (((m : ℤ) : BitVec 64).toNat : ℤ) = m := by
  lift m to ℕ using h0
  rw [Int.cast_natCast, toNat_natCast, Nat.mod_eq_of_lt (by exact_mod_cast hlt)]

theorem halfCounted_map (z : Counters.State Cell ℤ) :
    halfCounted (z.map (Int.castAddHom (BitVec 64))) = halfCounted z := by
  rw [halfCounted, halfCounted, State.map, List.countP_map]
  congr 1
  funext c
  simp only [isHalfCounted, Function.comp_apply, Counters.Call.map, mapAdds, List.any_map]
  rfl

/-- The loads before that of the count, and those behind it. -/
theorem loads_split : ∃ pre post, loads = pre ++ .durationCount :: post ∧
    .durationCount ∉ pre ∧ ∀ j, .durationBuckets j ∈ pre :=
  ⟨loads.take 57, loads.drop 58, by decide, by decide, by decide⟩

section Scrape

variable {es : List Event} {z : Counters.State Cell ℤ} {j : Nat} {r : Counters.Reader Cell ℤ}

theorem keys_of_done (hrun : run Counters.step State.init (es.map Event.label) = some z)
    (hr : z.readers[j]? = some r) (htodo : r.todo = []) : r.seen.map Prod.fst = loads := by
  have hkeys := run_keys (fun keys => keys = loads) (fun keys hmem => ?_) hrun r
    (List.mem_of_getElem? hr)
  · rwa [htodo, List.append_nil] at hkeys
  · obtain ⟨e, -, he⟩ := List.mem_map.1 hmem
    cases e with
    | scrape => exact (Label.read.inj he).symm
    | call | add | load => cases he

/-- A scrape has the count of one moment after it came, and no bucket ahead of that moment. -/
theorem exists_scraped (hrun : run Counters.step State.init (es.map Event.label) = some z)
    (hr : z.readers[j]? = some r) (htodo : r.todo = []) :
    ∃ mid u, mid <+: es ∧ run Counters.step State.init (mid.map Event.label) = some u ∧
      j < u.readers.length ∧ u.cells .durationCount = r.value .durationCount ∧
      ∀ i, r.value (.durationBuckets i) ≤ u.cells (.durationBuckets i) := by
  obtain ⟨keys, rest, hloads, hnot, hbuckets⟩ := loads_split
  have hkeys := keys_of_done hrun hr htodo
  rw [hloads] at hkeys
  obtain ⟨pre, tail, hseen, hpre, htail⟩ := List.map_eq_append_iff.1 hkeys
  obtain ⟨⟨k, v⟩, post, rfl, rfl, -⟩ := List.map_eq_cons_iff.1 htail
  obtain ⟨ms, u, hms, hu, hj, hcount, hle⟩ := exists_loaded hrun j r hr pre _ v post hseen
  obtain ⟨mid, rfl, hmid⟩ : ∃ mid, ms = mid.map Event.label ∧ mid <+: es := by
    obtain ⟨rest, hrest⟩ := hms
    obtain ⟨mid, after, rfl, rfl, -⟩ := List.map_eq_append_iff.1 hrest.symm
    exact ⟨mid, rfl, List.prefix_append mid after⟩
  refine ⟨mid, u, hmid, hu, hj, ?_, fun i => ?_⟩
  · have hnone : pre.lookup .durationCount = none := by
      refine List.lookup_eq_none_iff.2 fun p hp => bne_iff_ne.2 fun heq => hnot ?_
      exact heq ▸ hpre ▸ List.mem_map_of_mem hp
    rw [hcount, Reader.value, hseen, List.lookup_append, hnone, Option.none_or,
      List.lookup_cons_self, Option.getD_some]
  · obtain ⟨w, hw, hmem⟩ := lookup_some (k := .durationBuckets i) (hpre ▸ hbuckets i)
    rw [Reader.value, hseen, List.lookup_append, hw, Option.some_or, Option.getD_some]
    exact hle _ hmem (grows_histogram rfl es)

/-- A scrape that came later has what there was, or more. -/
theorem le_scraped {before after : List Event} {y : Counters.State Cell ℤ}
    (hy : run Counters.step State.init (before.map Event.label) = some y)
    (hrun : run Counters.step y (after.map Event.label) = some z)
    (hj : y.readers.length ≤ j) (hr : z.readers[j]? = some r) (htodo : r.todo = []) {k : Cell}
    (hk : isHistogram k = true) (hload : k ∈ loads) : y.cells k ≤ r.value k := by
  have hwhole : run Counters.step State.init ((before ++ after).map Event.label) = some z := by
    rw [List.map_append, run_append_some]
    exact ⟨y, hy, hrun⟩
  obtain ⟨v, hv, hmem⟩ := lookup_some (keys_of_done hwhole hr htodo ▸ hload)
  rw [Reader.value, hv, Option.getD_some]
  refine le_seen hy hrun ?_ hj r hr v hmem
  rw [← List.map_append]
  exact grows_histogram hk _

theorem cells_nonneg (hrun : run Counters.step State.init (es.map Event.label) = some z)
    {k : Cell} (hk : isHistogram k = true) : 0 ≤ z.cells k := by
  rw [run_cells hrun]
  refine List.sum_nonneg fun x hx => ?_
  obtain ⟨c, hc, rfl⟩ := List.mem_map.1 hx
  have hmem : c.adds ∈ callsOf (es.map (Event.label (ν := ℤ))) :=
    run_calls hrun ▸ List.mem_map_of_mem hc
  exact amount_nonneg fun a ha =>
    grows_histogram hk es c.adds hmem a (List.mem_append_left _ ha)

end Scrape

/--
While requests come and go, and their adds and the loads are taken in one order: the buckets of
a scrape never go down from one bound to the next; a scrape has everything that was in the
histogram when it came; and there is a moment between its coming and the end of the run with
exactly its count, whose half counted requests are all that a bucket can be above that count.
-/
theorem scrape_histogram {before after : List Event} {s t : Registry}
    (hs : runEvents before = some s) (hrun : runEvents (before ++ after) = some t)
    (hfit : (opsOf (before ++ after)).countP Op.isFinished < 2 ^ 64)
    {j : Nat} (hj : s.readers.length ≤ j) {r : Counters.Reader Cell (BitVec 64)}
    (hr : t.readers[j]? = some r) (htodo : r.todo = []) :
    (∀ i i', i ≤ i' → (cumulative r.value i).toNat ≤ (cumulative r.value i').toNat) ∧
      (∀ i, (cumulative s.cells i).toNat ≤ (cumulative r.value i).toNat) ∧
      (s.cells .durationCount).toNat ≤ (r.value .durationCount).toNat ∧
      ∃ mid u, before <+: mid ∧ mid <+: before ++ after ∧ runEvents mid = some u ∧
        u.cells .durationCount = r.value .durationCount ∧
        ∀ i, (cumulative r.value i).toNat ≤
          (r.value .durationCount).toNat + halfCounted u := by
  obtain ⟨z, hz, rfl⟩ := exists_integers hrun
  obtain ⟨y, hy, rfl⟩ := exists_integers hs
  have hyz : run Counters.step y (after.map Event.label) = some z := by
    rw [List.map_append, run_append, hy] at hz
    exact hz
  obtain ⟨q, hq, rfl⟩ := Option.map_eq_some_iff.1 ((List.getElem?_map).symm.trans hr)
  rw [State.map, List.length_map] at hj
  obtain ⟨mid, u, hmid, hu, hju, hcount, hle⟩ := exists_scraped hz hq htodo
  -- the integers are small
  have hfin {es : List Event} (hes : es <+: before ++ after) :
      (((opsOf es).countP Op.isFinished : Nat) : ℤ) < 2 ^ 64 := by
    have hsub := (hes.filterMap Event.op).sublist.countP_le (p := Op.isFinished)
    exact_mod_cast hsub.trans_lt hfit
  have hnil : run Counters.step State.init (([] : List Event).map Event.label) =
      some (State.init : Counters.State Cell ℤ) := rfl
  have hpos (i : Fin 12) : 0 ≤ q.value (.durationBuckets i) :=
    le_scraped hnil hz (Nat.zero_le j) hq htodo rfl (by revert i; decide)
  have hcum (i : Fin 12) : cumulative q.value i ≤ cumulative u.cells i := cumulative_le hle i
  have hbuckets (i : Fin 12) :
      ((cumulative (q.map (Int.castAddHom (BitVec 64))).value i).toNat : ℤ) =
        cumulative q.value i := by
    rw [funext (value_map q), cumulative_cast]
    exact toNat_intCast (cumulative_nonneg hpos i)
      (((hcum i).trans (cumulative_le_count hu i)).trans_lt (hfin hmid))
  have htotal : (((q.map (Int.castAddHom (BitVec 64))).value .durationCount).toNat : ℤ) =
      q.value .durationCount := by
    rw [value_map, ← hcount]
    exact toNat_intCast (cells_nonneg hu rfl) ((cells_le_count hu).trans_lt (hfin hmid))
  have hbefore (i : Fin 12) :
      ((cumulative (y.map (Int.castAddHom (BitVec 64))).cells i).toNat : ℤ) =
        cumulative y.cells i := by
    refine (congrArg _ (congrArg BitVec.toNat (cumulative_cast y.cells i))).trans ?_
    exact toNat_intCast (cumulative_nonneg (fun j => cells_nonneg hy rfl) i)
      ((cumulative_le_count hy i).trans_lt (hfin (List.prefix_append before after)))
  refine ⟨fun i i' hii => ?_, fun i => ?_, ?_, mid, u.map (Int.castAddHom _), ?_, hmid, ?_, ?_, ?_⟩
  · zify
    rw [hbuckets, hbuckets]
    exact cumulative_mono hpos hii
  · zify
    rw [hbuckets, hbefore]
    exact cumulative_le (fun i => le_scraped hy hyz hj hq htodo rfl (by revert i; decide)) i
  · zify
    rw [htotal]
    refine (toNat_intCast (cells_nonneg hy rfl) ((cells_le_count hy).trans_lt
      (hfin (List.prefix_append before after)))).trans_le ?_
    exact le_scraped hy hyz hj hq htodo rfl (by decide)
  · -- the scrape was there by then
    rcases List.prefix_or_prefix_of_prefix (List.prefix_append before after) hmid with h | h
    · exact h
    · obtain ⟨rest, rfl⟩ := h
      rw [List.map_append, run_append, hu] at hy
      have hmore := run_readers_le (s := u) hy
      omega
  · rw [runEvents, ← map_label, ← List.map_map, run_map, hu]
    rfl
  · rw [value_map, ← hcount]
    rfl
  · intro i
    zify
    rw [hbuckets, htotal, halfCounted_map, ← hcount]
    exact (hcum i).trans (cells_le hu i)

def oneFinished : List Event :=
  .call (.requestFinished ['G', 'E', 'T'] 200 1000000) :: List.replicate 5 (.add 0)

/-- The second request is in its bucket and not in the count when the scrape passes by. -/
def scrapedBetween : List Event :=
  .scrape :: .call (.requestFinished ['P', 'U', 'T'] 204 3000000) ::
    (List.replicate 3 (.add 1) ++ List.replicate 65 (.load 0))

theorem scrape_histogram_between : ∃ s t r, runEvents oneFinished = some s ∧
    runEvents (oneFinished ++ scrapedBetween) = some t ∧ t.readers[0]? = some r ∧
    (cumulative s.cells 3).toNat ≤ (cumulative r.value 3).toNat ∧
    (cumulative r.value 0).toNat ≤ (cumulative r.value 11).toNat := by
  have hone : ((runEvents oneFinished).map fun s => s.readers.length) = some 0 := by
    decide +kernel
  have hboth : ((runEvents (oneFinished ++ scrapedBetween)).bind fun t =>
      (t.readers[0]?).map Counters.Reader.todo) = some [] := by decide +kernel
  obtain ⟨s, hs, hlength⟩ := Option.map_eq_some_iff.1 hone
  obtain ⟨t, hrun, ht⟩ := Option.bind_eq_some_iff.1 hboth
  obtain ⟨r, hr, htodo⟩ := Option.map_eq_some_iff.1 ht
  have hfit : (opsOf (oneFinished ++ scrapedBetween)).countP Op.isFinished < 2 ^ 64 := by
    decide +kernel
  obtain ⟨hmono, hle, -⟩ := scrape_histogram hs hrun hfit hlength.le hr htodo
  exact ⟨s, t, r, hs, hrun, hr, hle 3, hmono 0 11 (by decide)⟩

end Metrics
end OxideHttp
