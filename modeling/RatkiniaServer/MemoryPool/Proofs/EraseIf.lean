import RatkiniaServer.MemoryPool.Proofs.SparseArray
import RatkiniaServer.MemoryPool.Proofs.SparseList

/-!
# Erasing while iterating

`EraseBySparseIndex` moves the last dense block to the one it erases. Since nothing ever sets the
`shouldInvalidateIterator_` that `operator++` reads, the iterator goes on past the block that was moved,
and a loop that erases visits every element only if it erases none but the last one.
-/

namespace RatkiniaServer.MemoryPool

universe u v

variable {α : Type u} {σ : Type v}

namespace MakeIterableFromThis

/-- The pairs that a container reads at the dense indices below its `count_` are its elements, each
once, and erasing one of them moves the last pair to its dense index. -/
structure Dense (C : Container σ α) (R : σ → Prop) : Prop where
  /-- There are no more elements than indices. -/
  count_le : ∀ s, R s → C.count s ≤ 2 ^ 32
  /-- The reads. -/
  pair : ∀ s, R s → ∀ d : UInt32, d.toNat < C.count s →
    ∃ e, C.getPairOfSparseIndexAndDataByDenseIndex s d = some e
  /-- No index is read twice. -/
  inj : ∀ s, R s → ∀ d d' : UInt32, d.toNat < C.count s → d'.toNat < C.count s → ∀ e e',
    C.getPairOfSparseIndexAndDataByDenseIndex s d = some e →
    C.getPairOfSparseIndexAndDataByDenseIndex s d' = some e' → e.1 = e'.1 → d = d'
  /-- The elements. -/
  get : ∀ s, R s → ∀ i, ∃ o, C.get s i = some o ∧ ∀ a, o = some a ↔ ∃ d : UInt32,
    d.toNat < C.count s ∧ C.getPairOfSparseIndexAndDataByDenseIndex s d = some (i, a)
  /-- Erasing. -/
  erase : ∀ s, R s → ∀ d : UInt32, d.toNat < C.count s → ∀ e,
    C.getPairOfSparseIndexAndDataByDenseIndex s d = some e →
    ∃ s', C.eraseBySparseIndex s e.1 = some s' ∧ R s' ∧ C.count s' = C.count s - 1 ∧
      ∀ d' : UInt32, d'.toNat < C.count s' →
        C.getPairOfSparseIndexAndDataByDenseIndex s' d' =
          C.getPairOfSparseIndexAndDataByDenseIndex s
            (if d' = d then UInt32.ofNat (C.count s - 1) else d')

/-- The loop visits every element once and leaves the elements for which the predicate is false. -/
def ErasesExactly (C : Container σ α) (pred : UInt32 × α → Bool) (s : σ) : Prop :=
  ∃ fuel visited s', eraseIf C pred fuel s = some (visited, s') ∧ (visited.map Prod.fst).Nodup ∧
    (∀ i a, (i, a) ∈ visited ↔ C.get s i = some (some a)) ∧
    ∀ i, C.get s' i = (C.get s i).map fun o => o.filter fun a => !pred (i, a)

/-- The dense indices reach all elements, and the predicate holds for no element in front of the last
one. -/
def OnlyLast (C : Container σ α) (pred : UInt32 × α → Bool) (s : σ) : Prop :=
  C.count s < 2 ^ 32 ∧ ∀ d : UInt32, d.toNat + 1 < C.count s →
    ∀ e, C.getPairOfSparseIndexAndDataByDenseIndex s d = some e → pred e = false

variable {C : Container σ α} {R : σ → Prop} {pred : UInt32 × α → Bool} {s s' t : σ} {d : UInt32}
  {e : UInt32 × α} {fuel : Nat} {visited : List (UInt32 × α)} {r : List (UInt32 × α) × σ}

/-- Since `shouldInvalidateIterator_` is false, the iterator always moves on. -/
theorem eraseIfFrom_succ (hd : d.toNat < C.count s)
    (he : C.getPairOfSparseIndexAndDataByDenseIndex s d = some e)
    (hs : (if pred e then C.eraseBySparseIndex s e.1 else some s) = some t) :
    eraseIfFrom C pred (fuel + 1) s false d =
      (eraseIfFrom C pred fuel t false (d + 1)).map fun r => (e :: r.1, r.2) := by
  rw [eraseIfFrom, if_neg (Nat.not_le.mpr hd)]
  simp only [he, Option.bind_some, hs, increment, Bool.false_eq_true, if_false, UInt32.sub_zero]

theorem eraseIfFrom_end (hd : C.count s ≤ d.toNat) :
    eraseIfFrom C pred fuel s false d = some ([], s) := by
  rw [eraseIfFrom.eq_def, if_pos hd]

/-- A step of a loop that has ended. -/
theorem eraseIfFrom_cases (h : eraseIfFrom C pred fuel s false d = some r) :
    C.count s ≤ d.toNat ∧ r = ([], s) ∨ d.toNat < C.count s ∧ ∃ k e t r',
      fuel = k + 1 ∧ C.getPairOfSparseIndexAndDataByDenseIndex s d = some e ∧
      (if pred e then C.eraseBySparseIndex s e.1 else some s) = some t ∧
      eraseIfFrom C pred k t false (d + 1) = some r' ∧ r = (e :: r'.1, r'.2) := by
  rw [eraseIfFrom.eq_def] at h
  split_ifs at h with hend
  · exact Or.inl ⟨hend, (Option.some.inj h).symm⟩
  · cases fuel with
    | zero => cases h
    | succ k =>
      obtain ⟨e, he, h⟩ := Option.bind_eq_some_iff.mp h
      obtain ⟨t, ht, h⟩ := Option.bind_eq_some_iff.mp h
      simp only [increment, Bool.false_eq_true, if_false, UInt32.sub_zero] at h
      obtain ⟨r', hr', hr⟩ := Option.map_eq_some_iff.mp h
      exact Or.inr ⟨Nat.not_le.mp hend, k, e, t, r', rfl, he, ht, hr', hr.symm⟩

theorem toNat_succ (hd : d.toNat + 1 < 2 ^ 32) : (d + 1).toNat = d.toNat + 1 := by
  rw [UInt32.toNat_add]
  exact Nat.mod_eq_of_lt hd

/-! ## Elements that the loop has passed -/

/-- After the iterator has passed an element, it does not come back to it before `count_` elements have
been visited. -/
theorem Dense.not_visited (hC : Dense C R) (hs : R s) (hcount : C.count s < 2 ^ 32)
    {p : UInt32} {z : UInt32 × α} (hz : C.getPairOfSparseIndexAndDataByDenseIndex s p = some z)
    (hpd : p.toNat < d.toNat) (h : eraseIfFrom C pred fuel s false d = some r) :
    ∀ e ∈ r.1, e.1 ≠ z.1 := by
  induction fuel generalizing s d r with
  | zero =>
    rcases eraseIfFrom_cases h with ⟨-, rfl⟩ | ⟨-, k, _, _, _, hk, -⟩
    · intro e he
      cases he
    · cases hk
  | succ fuel ih =>
    rcases eraseIfFrom_cases h with ⟨-, rfl⟩ | ⟨hd, k, x, t, r', hk, hx, ht, hr', rfl⟩
    · intro e he
      cases he
    obtain rfl : fuel = k := Nat.succ.inj hk
    have hnext : (d + 1).toNat = d.toNat + 1 := toNat_succ (by omega)
    have hxz : x.1 ≠ z.1 := fun heq => by
      have hdp := hC.inj s hs d p hd (by omega) x z hx hz heq
      rw [hdp] at hpd
      exact Nat.lt_irrefl _ hpd
    have hrest : ∀ e ∈ r'.1, e.1 ≠ z.1 := by
      split_ifs at ht with hpred
      · -- The element at `p` stays, since it is neither the last one nor the one erased.
        obtain ⟨t', ht', hRt, hcountt, hpairs⟩ := hC.erase s hs d hd x hx
        obtain rfl : t' = t := Option.some.inj (ht'.symm.trans ht)
        have hpd' : p ≠ d := fun heq => by
          rw [heq] at hpd
          exact Nat.lt_irrefl _ hpd
        refine ih hRt (by omega) ?_ (by omega) hr'
        rw [hpairs p (by omega), if_neg hpd', hz]
      · obtain rfl : s = t := Option.some.inj ht
        exact ih hs hcount hz (by omega) hr'
    intro e he
    rcases List.mem_cons.mp he with rfl | he
    · exact hxz
    · exact hrest e he

/-- The pairs from the dense index `d` on are the one at `d` and those from the next one on. -/
theorem mem_cons_iff_from {n : Nat} (hd : d.toNat < n) (hmax : d.toNat + 1 < 2 ^ 32)
    (he : C.getPairOfSparseIndexAndDataByDenseIndex s d = some e)
    (hvisited : ∀ x, x ∈ visited ↔ ∃ d' : UInt32, (d + 1).toNat ≤ d'.toNat ∧ d'.toNat < n ∧
      C.getPairOfSparseIndexAndDataByDenseIndex s d' = some x) (x : UInt32 × α) :
    x ∈ e :: visited ↔ ∃ d' : UInt32, d.toNat ≤ d'.toNat ∧ d'.toNat < n ∧
      C.getPairOfSparseIndexAndDataByDenseIndex s d' = some x := by
  rw [List.mem_cons, hvisited, toNat_succ hmax]
  constructor
  · rintro (rfl | ⟨d', hle, hlt, hx⟩)
    · exact ⟨d, le_rfl, hd, he⟩
    · exact ⟨d', by omega, hlt, hx⟩
  · rintro ⟨d', hle, hlt, hx⟩
    rcases Nat.eq_or_lt_of_le hle with heq | hlt'
    · rw [UInt32.toNat_inj.mp heq, hx] at he
      exact Or.inl (Option.some.inj he)
    · exact Or.inr ⟨d', by omega, hlt, hx⟩

/-- A loop that meets no element for which the predicate holds visits the elements in order. -/
theorem visits_prefix {n : Nat}
    (hquiet : ∀ d' : UInt32, d'.toNat < n → ∀ e,
      C.getPairOfSparseIndexAndDataByDenseIndex s d' = some e → pred e = false)
    (hn : n < C.count s) (hmax : n < 2 ^ 32) {k : Nat} (hk : d.toNat + k = n)
    (h : eraseIfFrom C pred fuel s false d = some r) :
    ∃ fuel' visited r', r = (visited ++ r'.1, r'.2) ∧
      eraseIfFrom C pred fuel' s false (UInt32.ofNat n) = some r' ∧
      ∀ e, e ∈ visited ↔ ∃ d' : UInt32, d.toNat ≤ d'.toNat ∧ d'.toNat < n ∧
        C.getPairOfSparseIndexAndDataByDenseIndex s d' = some e := by
  induction k generalizing d fuel r with
  | zero =>
    have hdn : d = UInt32.ofNat n := by
      rw [← hk, Nat.add_zero, UInt32.ofNat_toNat]
    refine ⟨fuel, [], r, rfl, hdn ▸ h, fun e => ?_⟩
    refine iff_of_false List.not_mem_nil ?_
    rintro ⟨d', hle, hlt, -⟩
    omega
  | succ k ih =>
    rcases eraseIfFrom_cases h with ⟨hend, -⟩ | ⟨hd, fuel₁, x, t, r₁, -, hx, ht, hr₁, rfl⟩
    · omega
    rw [if_neg (by rw [hquiet d (by omega) x hx]; exact Bool.false_ne_true)] at ht
    obtain rfl : s = t := Option.some.inj ht
    have hnext : (d + 1).toNat = d.toNat + 1 := toNat_succ (by omega)
    obtain ⟨fuel', visited, r', rfl, hr', hmem⟩ := ih (by omega) hr₁
    exact ⟨fuel', x :: visited, r', rfl, hr', mem_cons_iff_from (by omega) (by omega) hx hmem⟩

/-! ## The exact condition -/

/-- Every element has been visited, so its index is among the visited ones. -/
theorem Dense.visited_of_pair (hC : Dense C R) (hs : R s) (hd : d.toNat < C.count s)
    (he : C.getPairOfSparseIndexAndDataByDenseIndex s d = some e)
    (hall : ∀ i a, (i, a) ∈ visited ↔ C.get s i = some (some a)) : e ∈ visited := by
  obtain ⟨o, ho, hmem⟩ := hC.get s hs e.1
  rw [← Prod.eta e, hall, ho, (hmem e.2).mpr ⟨d, hd, he⟩]

/-- If an element in front of the last one is erased, the last one is not visited. -/
theorem Dense.not_erasesExactly (hC : Dense C R) (hs : R s) (hd : d.toNat + 1 < C.count s)
    (hquiet : ∀ d' : UInt32, d'.toNat < d.toNat → ∀ e,
      C.getPairOfSparseIndexAndDataByDenseIndex s d' = some e → pred e = false)
    (he : C.getPairOfSparseIndexAndDataByDenseIndex s d = some e) (hpred : pred e = true) :
    ¬ ErasesExactly C pred s := by
  rintro ⟨fuel, visited, s', heq, -, hall, -⟩
  have hle := hC.count_le s hs
  have hlast : (UInt32.ofNat (C.count s - 1)).toNat = C.count s - 1 :=
    UInt32.toNat_ofNat_of_lt' (by change _ < 2 ^ 32; omega)
  obtain ⟨z, hz⟩ := hC.pair s hs (UInt32.ofNat (C.count s - 1)) (by omega)
  have hvisited := hC.visited_of_pair hs (by omega) hz hall
  obtain ⟨fuel', first, r', hr, hr', hfirst⟩ := visits_prefix (n := d.toNat) hquiet (by omega)
    (UInt32.toNat_lt d) (Nat.zero_add _) heq
  rw [UInt32.ofNat_toNat] at hr'
  obtain ⟨rfl, -⟩ := Prod.mk.inj hr
  -- The last element is not among the first ones, nor is it the one that is erased.
  have hne : ∀ d' x, d'.toNat + 1 < C.count s →
      C.getPairOfSparseIndexAndDataByDenseIndex s d' = some x → x.1 ≠ z.1 := fun d' x hd' hx heq => by
    have hdz := hC.inj s hs d' _ (by omega) (by omega) x z hx hz heq
    rw [hdz] at hd'
    omega
  rcases List.mem_append.mp hvisited with hmem | hmem
  · obtain ⟨d', -, hlt, hx⟩ := (hfirst z).mp hmem
    exact hne d' z (by omega) hx rfl
  rcases eraseIfFrom_cases hr' with ⟨hend, -⟩ | ⟨hlt, k, x, t, r₁, -, hx, ht, hr₁, hr'⟩
  · omega
  obtain rfl : e = x := Option.some.inj (he.symm.trans hx)
  rw [if_pos hpred] at ht
  obtain ⟨t', ht', hRt, hcount, hpairs⟩ := hC.erase s hs d hlt e he
  obtain rfl : t' = t := Option.some.inj (ht'.symm.trans ht)
  -- After the erasure it is at `d`, which the iterator has passed.
  have hnext : (d + 1).toNat = d.toNat + 1 := toNat_succ (by omega)
  have hmoved : C.getPairOfSparseIndexAndDataByDenseIndex t' d = some z := by
    rw [hpairs d (by omega), if_pos rfl, hz]
  have hrest := hC.not_visited hRt (by omega) hmoved (by omega) hr₁
  rw [hr'] at hmem
  rcases List.mem_cons.mp hmem with rfl | hmem
  · exact hne d z hd he rfl
  · exact hrest z hmem rfl

/-- With 2³² elements the dense index comes back to 0. -/
theorem Dense.not_erasesExactly_of_full (hC : Dense C R) (hs : R s) (hfull : C.count s = 2 ^ 32)
    (hquiet : ∀ d : UInt32, d.toNat + 1 < C.count s → ∀ e,
      C.getPairOfSparseIndexAndDataByDenseIndex s d = some e → pred e = false) :
    ¬ ErasesExactly C pred s := by
  rintro ⟨fuel, visited, s', heq, hnodup, -, -⟩
  obtain ⟨e, he⟩ := hC.pair s hs 0 (by rw [hfull]; decide)
  obtain ⟨fuel', first, r', hr, hr', hfirst⟩ := visits_prefix (n := 2 ^ 32 - 1)
    (fun d hd => hquiet d (by omega)) (by omega) (by omega) (Nat.zero_add _) heq
  obtain ⟨rfl, -⟩ := Prod.mk.inj hr
  have hmem : e ∈ first := (hfirst e).mpr ⟨0, Nat.le_refl _, by decide, he⟩
  have hmax : (UInt32.ofNat (2 ^ 32 - 1)).toNat = 2 ^ 32 - 1 := by decide
  rcases eraseIfFrom_cases hr' with ⟨hend, -⟩ | ⟨hlt, k, x, t, r₁, -, hx, ht, hr₁, rfl⟩
  · omega
  -- The element at index 0 is still there.
  have hzero : UInt32.ofNat (2 ^ 32 - 1) + 1 = 0 := by decide
  have hagain : 0 < C.count t ∧ C.getPairOfSparseIndexAndDataByDenseIndex t 0 = some e := by
    split_ifs at ht
    · obtain ⟨t', ht', -, hcount, hpairs⟩ := hC.erase s hs _ hlt x hx
      obtain rfl : t' = t := Option.some.inj (ht'.symm.trans ht)
      have hpos : 0 < C.count t' := by omega
      refine ⟨hpos, ?_⟩
      rw [hpairs 0 hpos, if_neg (by decide), he]
    · obtain rfl : s = t := Option.some.inj ht
      exact ⟨by omega, he⟩
  rw [hzero] at hr₁
  rcases eraseIfFrom_cases hr₁ with ⟨hend, -⟩ | ⟨-, k', x', t', r₂, -, hx', -, -, rfl⟩
  · exact absurd hagain.1 (by simpa using hend)
  obtain rfl : e = x' := Option.some.inj (hagain.2.symm.trans hx')
  rw [List.map_append, List.nodup_append] at hnodup
  exact hnodup.2.2 e.1 (List.mem_map_of_mem hmem) e.1 (by simp) rfl

/-- The pairs that a container reads decide what `Get` finds. -/
theorem Dense.get_filter (hC : Dense C R) (hs : R s) (ht : R t)
    (hiff : ∀ e, (∃ d : UInt32, d.toNat < C.count t ∧
        C.getPairOfSparseIndexAndDataByDenseIndex t d = some e) ↔
      (∃ d : UInt32, d.toNat < C.count s ∧
        C.getPairOfSparseIndexAndDataByDenseIndex s d = some e) ∧ pred e = false) (i : UInt32) :
    C.get t i = (C.get s i).map fun o => o.filter fun a => !pred (i, a) := by
  obtain ⟨o, ho, hmem⟩ := hC.get s hs i
  obtain ⟨o', ho', hmem'⟩ := hC.get t ht i
  rw [ho, ho', Option.map_some]
  refine congrArg some (Option.ext fun a => ?_)
  rw [hmem', hiff, ← hmem, Option.filter_eq_some_iff, Bool.not_eq_true']

/-- The last round of a loop that erases at most the last element. -/
theorem Dense.visits_last (hC : Dense C R) (hs : R s) (h : OnlyLast C pred s)
    (hd : d.toNat + 1 = C.count s) (he : C.getPairOfSparseIndexAndDataByDenseIndex s d = some e) :
    ∃ t, eraseIfFrom C pred 1 s false d = some ([e], t) ∧
      ∀ i, C.get t i = (C.get s i).map fun o => o.filter fun a => !pred (i, a) := by
  obtain ⟨hmax, hquiet⟩ := h
  have hnext : (d + 1).toNat = d.toNat + 1 := toNat_succ (by omega)
  by_cases hpred : pred e
  · obtain ⟨t, ht, hRt, hcount, hpairs⟩ := hC.erase s hs d (by omega) e he
    have hold : ∀ d' : UInt32, d'.toNat < C.count t →
        C.getPairOfSparseIndexAndDataByDenseIndex t d' =
          C.getPairOfSparseIndexAndDataByDenseIndex s d' := fun d' hd' => by
      have hne : d' ≠ d := fun heq => by
        rw [heq] at hd'
        omega
      rw [hpairs d' hd', if_neg hne]
    refine ⟨t, ?_, hC.get_filter hs hRt fun x => ⟨?_, ?_⟩⟩
    · rw [eraseIfFrom_succ (by omega) he (by rw [if_pos hpred, ht]), eraseIfFrom_end (by omega)]
      rfl
    · rintro ⟨d', hd', hx⟩
      rw [hold d' hd'] at hx
      exact ⟨⟨d', by omega, hx⟩, hquiet d' (by omega) x hx⟩
    · rintro ⟨⟨d', hd', hx⟩, hfalse⟩
      have hne : d' ≠ d := by
        rintro rfl
        rw [he] at hx
        rw [Option.some.inj hx, hfalse] at hpred
        cases hpred
      have hlt : d'.toNat < C.count t := by
        have := mt UInt32.toNat_inj.mp hne
        omega
      exact ⟨d', hlt, by rw [hold d' hlt, hx]⟩
  · refine ⟨s, ?_, hC.get_filter hs hs fun x => (and_iff_left_of_imp ?_).symm⟩
    · rw [eraseIfFrom_succ (by omega) he (if_neg hpred), eraseIfFrom_end (by omega)]
      rfl
    · rintro ⟨d', hd', hx⟩
      by_cases hbefore : d'.toNat + 1 < C.count s
      · exact hquiet d' hbefore x hx
      · have hdd : d' = d := UInt32.toNat_inj.mp (by omega)
        rw [hdd, he] at hx
        rw [← Option.some.inj hx]
        exact Bool.eq_false_iff.mpr hpred

/-- The rest of a loop that erases at most the last element. -/
theorem Dense.visits_rest (hC : Dense C R) (hs : R s) (h : OnlyLast C pred s) {k : Nat} :
    ∀ d : UInt32, d.toNat + (k + 1) = C.count s →
    ∃ visited t, eraseIfFrom C pred (k + 1) s false d = some (visited, t) ∧
      (visited.map Prod.fst).Nodup ∧
      (∀ e, e ∈ visited ↔ ∃ d' : UInt32, d.toNat ≤ d'.toNat ∧ d'.toNat < C.count s ∧
        C.getPairOfSparseIndexAndDataByDenseIndex s d' = some e) ∧
      ∀ i, C.get t i = (C.get s i).map fun o => o.filter fun a => !pred (i, a) := by
  have hmax := h.1
  induction k with
  | zero =>
    intro d hd
    obtain ⟨e, he⟩ := hC.pair s hs d (by omega)
    obtain ⟨t, heq, hget⟩ := hC.visits_last hs h (by omega) he
    refine ⟨[e], t, heq, List.nodup_singleton _,
      mem_cons_iff_from (by omega) (by omega) he fun x => ?_, hget⟩
    refine iff_of_false List.not_mem_nil ?_
    rintro ⟨d', hle, hlt, -⟩
    rw [toNat_succ (by omega)] at hle
    omega
  | succ k ih =>
    intro d hd
    obtain ⟨e, he⟩ := hC.pair s hs d (by omega)
    have hnext : (d + 1).toNat = d.toNat + 1 := toNat_succ (by omega)
    obtain ⟨visited, t, heq, hnodup, hvisited, hget⟩ := ih (d + 1) (by omega)
    have hfalse := h.2 d (by omega) e he
    refine ⟨e :: visited, t, ?_, ?_, mem_cons_iff_from (by omega) (by omega) he hvisited, hget⟩
    · rw [eraseIfFrom_succ (by omega) he (if_neg (by rw [hfalse]; exact Bool.false_ne_true)), heq]
      rfl
    · refine List.nodup_cons.mpr ⟨fun hmem => ?_, hnodup⟩
      obtain ⟨x, hx, hfst⟩ := List.mem_map.mp hmem
      obtain ⟨d', hle, hlt, hread⟩ := (hvisited x).mp hx
      have hdd := hC.inj s hs d' d hlt (by omega) x e hread he hfst
      rw [hdd] at hle
      omega

/-- A loop that erases at most the last element. -/
theorem Dense.erasesExactly (hC : Dense C R) (hs : R s) (h : OnlyLast C pred s) :
    ErasesExactly C pred s := by
  have hmem : ∀ visited : List (UInt32 × α),
      (∀ e, e ∈ visited ↔ ∃ d : UInt32, (0 : UInt32).toNat ≤ d.toNat ∧ d.toNat < C.count s ∧
        C.getPairOfSparseIndexAndDataByDenseIndex s d = some e) →
      ∀ i a, (i, a) ∈ visited ↔ C.get s i = some (some a) := fun visited hvisited i a => by
    obtain ⟨o, ho, hiff⟩ := hC.get s hs i
    rw [hvisited, ho, Option.some_inj, hiff]
    exact exists_congr fun d => and_iff_right (Nat.zero_le _)
  cases hcount : C.count s with
  | zero =>
    refine ⟨0, [], s, eraseIfFrom_end (by rw [hcount]; exact Nat.zero_le _), List.nodup_nil,
      hmem [] fun e => ?_, hC.get_filter hs hs fun e => ?_⟩
    · refine iff_of_false List.not_mem_nil ?_
      rintro ⟨d, -, hd, -⟩
      omega
    · constructor
      · rintro ⟨d, hd, -⟩
        omega
      · rintro ⟨⟨d, hd, -⟩, -⟩
        omega
  | succ k =>
    obtain ⟨visited, t, heq, hnodup, hvisited, hget⟩ :=
      hC.visits_rest hs h (k := k) 0 (by rw [hcount]; exact Nat.zero_add _)
    exact ⟨k + 1, visited, t, heq, hnodup, hmem visited hvisited, hget⟩

/-- **Erasing in a loop** does what it should exactly if it erases at most the last element. -/
theorem Dense.erasesExactly_iff (hC : Dense C R) (hs : R s) :
    ErasesExactly C pred s ↔ OnlyLast C pred s := by
  refine ⟨fun h => ?_, hC.erasesExactly hs⟩
  have hquiet : ∀ d : UInt32, d.toNat + 1 < C.count s →
      ∀ e, C.getPairOfSparseIndexAndDataByDenseIndex s d = some e → pred e = false := by
    intro d
    induction hn : d.toNat using Nat.strong_induction_on generalizing d with
    | _ n ih =>
      intro hd e he
      by_contra hpred
      refine hC.not_erasesExactly hs (by omega) (fun d' hd' => ?_) he
        (by simpa using hpred) h
      exact ih d'.toNat (by omega) d' rfl (by omega)
  refine ⟨Nat.lt_of_le_of_ne (hC.count_le s hs) fun hfull => ?_, hquiet⟩
  exact hC.not_erasesExactly_of_full hs hfull hquiet h

/-- The dense index at which the pair at `d'` was before the one at `d` was erased. -/
theorem exists_moved {n : Nat} (hn : n ≤ 2 ^ 32) (d : UInt32) {d' : UInt32} (hd' : d'.toNat < n - 1) :
    ∃ f, (if d' = d then UInt32.ofNat (n - 1) else d') = f ∧
      f.toNat = (if d'.toNat = d.toNat then n - 1 else d'.toNat) ∧ f.toNat < n := by
  by_cases hdd : d' = d
  · have hlast : (UInt32.ofNat (n - 1)).toNat = n - 1 :=
      UInt32.toNat_ofNat_of_lt' (by change _ < 2 ^ 32; omega)
    exact ⟨_, if_pos hdd, by rw [hlast, if_pos (congrArg _ hdd)], by omega⟩
  · exact ⟨_, if_neg hdd, (if_neg (mt UInt32.toNat_inj.mp hdd)).symm, by omega⟩

end MakeIterableFromThis

open MakeIterableFromThis PackedArray

namespace SparseList

variable {Z : SparseListSizes} {l l' : SparseList Z α} {live : UInt32 → Option α} {i d : UInt32}

/-- The pair at a dense index is the live index in the dense block with its element. -/
theorem Represents.pair_eq (h : Represents l live) (hd : d.toNat < l.count) :
    l.getPairOfSparseIndexAndDataByDenseIndex d =
      (live (l.denseBlocks d.toNat)).map fun a => (l.denseBlocks d.toNat, a) := by
  rw [getPairOfSparseIndexAndDataByDenseIndex, denseBlock_of_lt (Nat.lt_of_lt_of_le hd h.pages),
    Option.bind_some, h.get]

theorem Represents.exists_pair (h : Represents l live) (hd : d.toNat < l.count) :
    ∃ a, live (l.denseBlocks d.toNat) = some a ∧
      l.getPairOfSparseIndexAndDataByDenseIndex d = some (l.denseBlocks d.toNat, a) := by
  obtain ⟨a, ha⟩ : ∃ a, live (l.denseBlocks d.toNat) = some a := by
    rw [← Option.isSome_iff_exists, ← h.position_isSome, h.packed.position_cells hd]
    rfl
  exact ⟨a, ha, by rw [h.pair_eq hd, ha, Option.map_some]⟩

theorem denseBlocks_swapDenseBlock (heq : l.swapDenseBlock d = some l') :
    l'.denseBlocks = Function.update l.denseBlocks d.toNat (l.denseBlocks l.count) := by
  rw [swapDenseBlock] at heq
  split_ifs at heq
  obtain ⟨swapSparseIndex, hread, heq⟩ := Option.bind_eq_some_iff.mp heq
  obtain ⟨swapSparseBlock, -, rfl⟩ := Option.map_eq_some_iff.mp heq
  rw [denseBlock] at hread
  split_ifs at hread
  rw [← Option.some.inj hread]
  simp only [densePosition_eq, setDenseIndex]

/-- `EraseBySparseIndex` fills the dense block of the index with the last one. -/
theorem denseBlocks_eraseBySparseIndex {block : SparseBlock α}
    (hlook : l.sparseBlocks.lookup i = some block) (heq : l.eraseBySparseIndex i = some l') :
    ∀ n < l.count - 1, l'.denseBlocks n =
      l.denseBlocks (if n = block.denseIndex.toNat then l.count - 1 else n) := by
  intro n hn
  obtain ⟨hget, hdata⟩ := IndexedUnmanagedList.get_of_lookup hlook
  set rest : SparseList Z α := { l.setDenseIndex i.toNat nullIndex with
    sparseBlocks := (l.setDenseIndex i.toNat nullIndex).sparseBlocks.erase i
    count := l.count - 1 }
  have hrest : (if block.denseIndex.toNat = rest.count then some rest
      else rest.swapDenseBlock block.denseIndex) = some l' := by
    rw [← heq, SparseList.eraseBySparseIndex, hget, Option.bind_some, hdata]
    rfl
  split_ifs at hrest with hlast
  · obtain rfl := Option.some.inj hrest
    rw [if_neg]
    · rfl
    · rintro rfl
      exact Nat.ne_of_lt hn hlast
  · rw [denseBlocks_swapDenseBlock hrest]
    by_cases hnd : n = block.denseIndex.toNat
    · rw [if_pos hnd, hnd, Function.update_self]
      rfl
    · rw [if_neg hnd, Function.update_of_ne hnd]
      rfl

theorem dense_container (Z : SparseListSizes) :
    Dense (container Z α) fun l => ∃ live, Represents l live where
  count_le := by
    rintro l ⟨live, h⟩
    exact h.packed.count_le_two_pow
  pair := by
    rintro l ⟨live, h⟩ d hd
    obtain ⟨a, -, hpair⟩ := h.exists_pair hd
    exact ⟨_, hpair⟩
  inj := by
    rintro l ⟨live, h⟩ d d' hd hd' e e' he he' hee
    obtain ⟨a, -, hpair⟩ := h.exists_pair hd
    obtain ⟨a', -, hpair'⟩ := h.exists_pair hd'
    obtain rfl := Option.some.inj (hpair.symm.trans he)
    obtain rfl := Option.some.inj (hpair'.symm.trans he')
    exact UInt32.toNat_inj.mp (h.packed.inj hd hd' hee)
  get := by
    rintro l ⟨live, h⟩ i
    refine ⟨live i, congrArg some (congrFun h.get i), fun a => ⟨fun ha => ?_, ?_⟩⟩
    · obtain ⟨block, hlook, rfl⟩ := h.exists_lookup ha
      have hposition : l.position i = some block.denseIndex.toNat := by
        rw [position, Function.comp_apply, hlook]
        rfl
      have hlt := h.packed.lt hposition
      refine ⟨block.denseIndex, hlt, ?_⟩
      have hcell := h.packed.cells_eq hposition
      exact (h.pair_eq hlt).trans (by rw [hcell, ha, Option.map_some])
    · rintro ⟨d, hd, he⟩
      obtain ⟨a', ha', hpair⟩ := h.exists_pair hd
      obtain ⟨rfl, rfl⟩ := Prod.mk.inj (Option.some.inj (hpair.symm.trans he))
      exact ha'
  erase := by
    rintro l ⟨live, h⟩ d hd e he
    obtain ⟨a, ha, hpair⟩ := h.exists_pair hd
    obtain rfl := Option.some.inj (hpair.symm.trans he)
    obtain ⟨l', heq, h'⟩ := h.eraseBySparseIndex ha
    have hcount := count_eraseBySparseIndex heq
    refine ⟨l', heq, ⟨_, h'⟩, hcount, fun d' hd' => ?_⟩
    obtain ⟨block, hlook, -⟩ := h.exists_lookup ha
    have hblock : block.denseIndex.toNat = d.toNat := by
      have hposition := h.packed.position_cells hd
      rw [position, Function.comp_apply, hlook] at hposition
      exact Option.some.inj hposition
    have hlt : d'.toNat < l.count - 1 := hcount ▸ hd'
    obtain ⟨f, hf, hfnat, hflt⟩ := exists_moved h.packed.count_le_two_pow d hlt
    -- The dense block has the index that the last one or itself had, which is not the one erased.
    have hcell : l'.denseBlocks d'.toNat = l.denseBlocks f.toNat := by
      rw [denseBlocks_eraseBySparseIndex hlook heq _ hlt, hblock, hfnat]
    have hne : l.denseBlocks f.toNat ≠ l.denseBlocks d.toNat := fun heq' => by
      have hfd := h.packed.inj hflt hd heq'
      rw [hfnat] at hfd
      split_ifs at hfd <;> omega
    change l'.getPairOfSparseIndexAndDataByDenseIndex d' =
      l.getPairOfSparseIndexAndDataByDenseIndex (if d' = d then UInt32.ofNat (l.count - 1) else d')
    rw [hf, h'.pair_eq (hcount ▸ hlt), h.pair_eq hflt, hcell, Function.update_of_ne hne]

end SparseList

namespace SparseArray

variable {Z : SparseArraySizes} {l l' : SparseArray Z α} {live : UInt32 → Option α} {i d : UInt32}
  {move : Move α}

theorem Represents.pair_eq (h : Represents l live) (hd : d.toNat < l.count) :
    l.getPairOfSparseIndexAndDataByDenseIndex d =
      some ((l.denseBlocks d.toNat).sparseIndex, (l.denseBlocks d.toNat).data) := by
  rw [getPairOfSparseIndexAndDataByDenseIndex, denseBlock_of_lt (Nat.lt_of_lt_of_le hd h.pages),
    Option.map_some]

theorem denseBlocks_swapDenseBlock (heq : l.swapDenseBlock move d = some l') :
    l'.count = l.count ∧ ∀ n < l.count, l'.denseBlocks n =
      Function.update l.denseBlocks d.toNat (l.denseBlocks l.count) n := by
  obtain ⟨last, -, heq⟩ := Option.bind_eq_some_iff.mp heq
  obtain ⟨lastSparseBlock, -, rfl⟩ := Option.map_eq_some_iff.mp heq
  refine ⟨rfl, fun n hn => ?_⟩
  simp only [densePosition_eq]
  exact moveDenseBlock_apply _ _ _ _ (Nat.ne_of_lt hn)

/-- `EraseBySparseIndex` fills the dense block of the index with the last one. -/
theorem denseBlocks_eraseBySparseIndex (hlook : l.sparseBlocks.lookup i = some d)
    (heq : l.eraseBySparseIndex move i = some l') : l'.count = l.count - 1 ∧
      ∀ n < l.count - 1, l'.denseBlocks n =
        l.denseBlocks (if n = d.toNat then l.count - 1 else n) := by
  obtain ⟨hget, hdata⟩ := IndexedUnmanagedList.get_of_lookup hlook
  set rest : SparseArray Z α := { l with
    sparseBlocks := (l.sparseBlocks.setData i.toNat nullIndex).erase i
    count := l.count - 1 }
  have hrest : (if d.toNat = rest.count then some rest else rest.swapDenseBlock move d) = some l' := by
    rw [SparseArray.eraseBySparseIndex, hget, Option.bind_some, hdata] at heq
    obtain ⟨-, -, heq⟩ := Option.bind_eq_some_iff.mp heq
    exact heq
  split_ifs at hrest with hlast
  · obtain rfl := Option.some.inj hrest
    refine ⟨rfl, fun n hn => ?_⟩
    rw [if_neg]
    rintro rfl
    exact Nat.ne_of_lt hn hlast
  · obtain ⟨hcount, hblocks⟩ := denseBlocks_swapDenseBlock hrest
    refine ⟨hcount, fun n hn => ?_⟩
    rw [hblocks n hn]
    by_cases hnd : n = d.toNat
    · rw [if_pos hnd, hnd, Function.update_self]
    · rw [if_neg hnd, Function.update_of_ne hnd]

theorem dense_container (Z : SparseArraySizes) (move : Move α) :
    Dense (container Z move) fun l => ∃ live, Represents l live where
  count_le := by
    rintro l ⟨live, h⟩
    exact h.packed.count_le_two_pow
  pair := by
    rintro l ⟨live, h⟩ d hd
    exact ⟨_, h.pair_eq hd⟩
  inj := by
    rintro l ⟨live, h⟩ d d' hd hd' e e' he he' hee
    obtain rfl := Option.some.inj ((h.pair_eq hd).symm.trans he)
    obtain rfl := Option.some.inj ((h.pair_eq hd').symm.trans he')
    exact UInt32.toNat_inj.mp (h.packed.inj hd hd' hee)
  get := by
    rintro l ⟨live, h⟩ i
    have hget : l.get i = some (live i) := by
      cases hi : live i with
      | none =>
        have hnone := IndexedUnmanagedList.get_eq_none_iff.mpr (h.lookup_eq_none_iff.mpr hi)
        rw [SparseArray.get, hnone]
      | some a =>
        obtain ⟨d, hlook, -, hlt, -, hdata⟩ := h.exists_lookup hi
        obtain ⟨hnode, hd⟩ := IndexedUnmanagedList.get_of_lookup hlook
        rw [SparseArray.get, hnode]
        dsimp only
        rw [hd, denseBlock_of_lt (Nat.lt_of_lt_of_le hlt h.pages), Option.map_some, hdata]
    refine ⟨live i, hget, fun a => ⟨fun ha => ?_, ?_⟩⟩
    · obtain ⟨d, -, -, hlt, rfl, rfl⟩ := h.exists_lookup ha
      exact ⟨d, hlt, h.pair_eq hlt⟩
    · rintro ⟨d, hd, he⟩
      obtain ⟨rfl, rfl⟩ := Prod.mk.inj (Option.some.inj ((h.pair_eq hd).symm.trans he))
      rw [h.value, h.packed.position_cells hd, Option.map_some]
  erase := by
    rintro l ⟨live, h⟩ d hd e he
    obtain rfl := Option.some.inj ((h.pair_eq hd).symm.trans he)
    have hposition := h.packed.position_cells hd
    have ha : live (l.denseBlocks d.toNat).sparseIndex = some (l.denseBlocks d.toNat).data := by
      rw [h.value, hposition, Option.map_some]
    obtain ⟨l', heq, h'⟩ := h.eraseBySparseIndex move ha
    obtain ⟨d₀, hlook, hd₀, -⟩ := h.exists_lookup ha
    obtain ⟨hcount, hblocks⟩ := denseBlocks_eraseBySparseIndex hlook heq
    refine ⟨l', heq, ⟨_, h'⟩, hcount, fun d' hd' => ?_⟩
    have hdd : d₀.toNat = d.toNat := Option.some.inj (hd₀.symm.trans hposition)
    have hlt : d'.toNat < l.count - 1 := hcount ▸ hd'
    obtain ⟨f, hf, hfnat, hflt⟩ := exists_moved h.packed.count_le_two_pow d hlt
    change l'.getPairOfSparseIndexAndDataByDenseIndex d' =
      l.getPairOfSparseIndexAndDataByDenseIndex (if d' = d then UInt32.ofNat (l.count - 1) else d')
    rw [hf, h'.pair_eq (hcount ▸ hlt), h.pair_eq hflt, hblocks _ hlt, hdd, hfnat]

end SparseArray

namespace MakeIterableFromThis

/-- **Erasing while iterating.** Over every content of a `SparseList` or a `SparseArray`, a loop that
erases the elements for which a predicate holds visits each element once, ends, and leaves the others,
exactly if there are fewer than 2³² elements and the predicate holds for none in front of the last dense
block. -/
theorem erasesExactly_iff_onlyLast (pred : UInt32 × α → Bool) :
    (∀ Z (l : SparseList Z α) live, SparseList.Represents l live →
      (ErasesExactly (SparseList.container Z α) pred l ↔
        OnlyLast (SparseList.container Z α) pred l)) ∧
    ∀ Z move (l : SparseArray Z α) live, SparseArray.Represents l live →
      (ErasesExactly (SparseArray.container Z move) pred l ↔
        OnlyLast (SparseArray.container Z move) pred l) :=
  ⟨fun Z _ live h => (SparseList.dense_container Z).erasesExactly_iff ⟨live, h⟩,
    fun Z move _ live h => (SparseArray.dense_container Z move).erasesExactly_iff ⟨live, h⟩⟩

/-- `EmplaceAt` at an index that is not live, as a step. -/
theorem represents_step_emplaceAt {Z : SparseListSizes} (hN : Z.sparse.nodesPerPage ≤ 2 ^ 31)
    {w : SparseList.World Z α} (h : SparseList.Represents w.list w.live) {i : UInt32}
    (hi : w.live i = none) (a : α) : ∃ w', SparseList.step w (.emplaceAt i a) = some w' ∧
      w'.live = Function.update w.live i (some a) ∧ SparseList.Represents w'.list w'.live := by
  obtain ⟨l, heq, h'⟩ := h.emplaceAt hN hi a
  refine ⟨⟨l, Function.update w.live i (some a)⟩, ?_, rfl, h'⟩
  rw [SparseList.step, heq, Option.map_some]

/-- A list with the two elements 10 and 11. -/
theorem represents_twoElements : ∃ w, Transition.run SparseList.step SparseList.freshThree
    [.emplaceAt 0 10, .emplaceAt 1 11] = some w ∧ SparseList.Represents w.list w.live := by
  have h₀ : SparseList.Represents SparseList.freshThree.list SparseList.freshThree.live :=
    SparseList.represents_empty _ _
  obtain ⟨w₁, hstep₁, hlive, h₁⟩ := represents_step_emplaceAt (by decide) h₀ (i := 0) rfl 10
  have hnone : w₁.live 1 = none := by rw [hlive, Function.update_of_ne (by decide)]; rfl
  obtain ⟨w₂, hstep₂, -, h₂⟩ := represents_step_emplaceAt (by decide) h₁ hnone 11
  exact ⟨w₂, Transition.run_cons_eq_some.mpr ⟨w₁, hstep₁,
    Transition.run_cons_eq_some.mpr ⟨w₂, hstep₂, rfl⟩⟩, h₂⟩

theorem erasesExactly_iff_onlyLast_twoElements : ∃ w,
    Transition.run SparseList.step SparseList.freshThree [.emplaceAt 0 10, .emplaceAt 1 11] = some w ∧
    (ErasesExactly (SparseList.container _ _) (fun e => e.2 == 11) w.list ↔
      OnlyLast (SparseList.container _ _) (fun e => e.2 == 11) w.list) := by
  obtain ⟨w, hrun, h⟩ := represents_twoElements
  exact ⟨w, hrun, (erasesExactly_iff_onlyLast fun e => e.2 == 11).1 _ w.list w.live h⟩

/-- A loop that is to erase both of two elements skips the second. -/
theorem not_erasesExactly_twoElements : ∃ w,
    Transition.run SparseList.step SparseList.freshThree [.emplaceAt 0 10, .emplaceAt 1 11] = some w ∧
    ¬ ErasesExactly (SparseList.container _ _) (fun _ => true) w.list := by
  obtain ⟨w, hrun, h⟩ := represents_twoElements
  have hdense : Dense (SparseList.container _ _) _ :=
    @SparseList.dense_container UInt32 SparseList.threeBlockPages
  have hcount : w.list.count = 2 := by
    have hrun' : (Transition.run SparseList.step SparseList.freshThree
      [.emplaceAt 0 10, .emplaceAt 1 11]).map (fun w => w.list.count) = some 2 := rfl
    rw [hrun] at hrun'
    exact Option.some.inj hrun'
  obtain ⟨e, he⟩ := hdense.pair w.list ⟨_, h⟩ 0 (show 0 < w.list.count by omega)
  have hlt : (0 : UInt32).toNat + 1 < w.list.count := by
    rw [hcount]
    decide
  refine ⟨w, hrun, hdense.not_erasesExactly ⟨_, h⟩ hlt ?_ he rfl⟩
  intro d' hd'
  exact absurd hd' (Nat.not_lt_zero _)

end MakeIterableFromThis

end RatkiniaServer.MemoryPool
