import RatkiniaServer.Floweryclover.ParallelExecutor

/-!
# Pages and their iteration

Appending a result extends the values that a page stores, however large the page is. The iterator of
`ExecutionResults` visits the values of all pages in order and skips the pages that are empty.
-/

namespace RatkiniaServer.Floweryclover.ParallelExecutor

open Ring

variable {R : Type} {copyable : TriviallyCopyable R}

/-- Bytes as results. -/
def copyableByte : TriviallyCopyable UInt8 where
  size := 1
  size_pos := Nat.one_pos
  toBytes b := [b]
  ofBytes bs := bs.headD 0
  length_toBytes _ := rfl
  ofBytes_toBytes _ := rfl

/-! ## Pages -/

namespace WorkerThreadResult

variable {r : WorkerThreadResult} {baseSize : Nat}

/-- The values that a page stores. -/
def values (copyable : TriviallyCopyable R) (r : WorkerThreadResult) : List R :=
  (List.range r.elementCount).map (r.element copyable)

/-- The values are inside of the page. -/
def Fits (copyable : TriviallyCopyable R) (r : WorkerThreadResult) : Prop :=
  copyable.size * r.elementCount ≤ r.pageSize

@[simp] theorem length_values : (r.values copyable).length = r.elementCount := by simp [values]

theorem getElem_values {i : Nat} (hi : i < (r.values copyable).length) :
    (r.values copyable)[i] = r.element copyable i := by
  simp [values]

theorem le_pageSize_extendPage (hbase : 1 ≤ baseSize) (r : WorkerThreadResult) :
    r.pageSize + 1 ≤ (r.extendPage baseSize).pageSize := by
  simp only [extendPage]
  split_ifs <;> omega

/-- `ExtendPageAtLeast` ends with a page that is large enough, and keeps what the page held. -/
theorem extendPageAtLeast_spec (hbase : 1 ≤ baseSize) (r : WorkerThreadResult) (atLeast : Nat)
    {fuel : Nat} (hfuel : atLeast ≤ r.pageSize + fuel) :
    ∃ r', extendPageAtLeast baseSize atLeast fuel r = some r' ∧ atLeast ≤ r'.pageSize ∧
      r'.elementCount = r.elementCount ∧ ∀ i < r.pageSize, r'.page i = r.page i := by
  induction fuel generalizing r with
  | zero =>
    have hsize : ¬ r.pageSize < atLeast := by omega
    exact ⟨r, if_neg hsize, by omega, rfl, fun _ _ => rfl⟩
  | succ fuel ih =>
    by_cases hsize : r.pageSize < atLeast
    · have hgrow := le_pageSize_extendPage hbase r
      obtain ⟨r', heq, hle, hcount, hpage⟩ := ih (r.extendPage baseSize) (by omega)
      refine ⟨r', (if_pos hsize).trans heq, hle, hcount, fun i hi => ?_⟩
      rw [hpage i (by omega)]
      exact if_pos hi
    · exact ⟨r, if_neg hsize, by omega, rfl, fun _ _ => rfl⟩

/-- Appending a result. -/
theorem append_spec (hbase : 1 ≤ baseSize) (hfits : r.Fits copyable) (result : R) :
    ∃ r', r.append copyable baseSize result = some r' ∧ r'.Fits copyable ∧
      r'.values copyable = r.values copyable ++ [result] := by
  obtain ⟨r', heq, hle, hcount, hpage⟩ :=
    extendPageAtLeast_spec hbase r (copyable.size * (r.elementCount + 1)) (Nat.le_add_left _ _)
  rw [Nat.mul_succ] at hle
  have hbytes := copyable.length_toBytes result
  refine ⟨⟨r'.pageSize, r.elementCount + 1,
    write r'.page (copyable.size * r.elementCount) (copyable.toBytes result)⟩, ?_, ?_, ?_⟩
  · simp only [append, heq, Option.bind_some, hcount]
    exact if_pos hle
  · show copyable.size * (r.elementCount + 1) ≤ r'.pageSize
    rw [Nat.mul_succ]
    exact hle
  · simp only [values, List.range_succ, List.map_append, List.map_singleton]
    congr 1
    · -- the values before are not touched
      refine List.map_congr_left fun i hi => congrArg copyable.ofBytes ?_
      have hbelow : i * copyable.size + copyable.size ≤ copyable.size * r.elementCount := by
        rw [← Nat.succ_mul, Nat.mul_comm]
        exact Nat.mul_le_mul_left _ (List.mem_range.mp hi)
      rw [slice_write_of_le hbelow]
      refine slice_congr fun j _ hj => hpage j ?_
      unfold Fits at hfits
      omega
    · have hslice : slice (write r'.page (copyable.size * r.elementCount) (copyable.toBytes result))
          (r.elementCount * copyable.size) copyable.size = copyable.toBytes result := by
        rw [Nat.mul_comm r.elementCount]
        nth_rewrite 3 [← hbytes]
        exact slice_write
      exact congrArg (fun x => [x])
        ((congrArg copyable.ofBytes hslice).trans (copyable.ofBytes_toBytes result))

end WorkerThreadResult

/-! ## Iteration -/

variable {rs : List WorkerThreadResult}

/-- The values that the iterator has before it. -/
def rest (copyable : TriviallyCopyable R) (rs : List WorkerThreadResult) (it : Iterator) : List R :=
  match rs[it.currentThreadResultIndex]? with
  | none => []
  | some r =>
    (r.values copyable).drop it.currentResultElementIndex ++
      (rs.drop (it.currentThreadResultIndex + 1)).flatMap (·.values copyable)

/-- The iterator is at a value or at the end. -/
def Iterator.Valid (rs : List WorkerThreadResult) (it : Iterator) : Prop :=
  ∀ r, rs[it.currentThreadResultIndex]? = some r → it.currentResultElementIndex < r.elementCount

theorem rest_zero (i : Nat) :
    rest copyable rs ⟨i, 0⟩ = (rs.drop i).flatMap (·.values copyable) := by
  dsimp only [rest]
  by_cases hi : i < rs.length
  · rw [List.drop_eq_getElem_cons hi, List.getElem?_eq_getElem hi]
    rfl
  · have hend : rs.length ≤ i := Nat.le_of_not_lt hi
    have hnil : rs.drop i = [] := List.drop_eq_nil_of_le hend
    rw [List.getElem?_eq_none hend, hnil]
    rfl

/-- Behind the last value of a page comes the next page. -/
theorem rest_of_le (it : Iterator) {r : WorkerThreadResult}
    (hr : rs[it.currentThreadResultIndex]? = some r)
    (hle : r.elementCount ≤ it.currentResultElementIndex) :
    rest copyable rs it = rest copyable rs ⟨it.currentThreadResultIndex + 1, 0⟩ := by
  rw [rest_zero]
  simp only [rest, hr]
  rw [List.drop_eq_nil_of_le (by rw [WorkerThreadResult.length_values]; exact hle), List.nil_append]

theorem lt_length_of_getElem? {i : Nat} {r : WorkerThreadResult} (hr : rs[i]? = some r) :
    i < rs.length :=
  (List.getElem?_eq_some_iff.mp hr).1

theorem Iterator.valid_of_none {it : Iterator} (hr : rs[it.currentThreadResultIndex]? = none) :
    it.Valid rs := by
  intro r hr'
  rw [hr] at hr'
  cases hr'

theorem Iterator.valid_of_lt {it : Iterator} {r : WorkerThreadResult}
    (hr : rs[it.currentThreadResultIndex]? = some r)
    (hlt : it.currentResultElementIndex < r.elementCount) : it.Valid rs := by
  intro r' hr'
  rw [hr] at hr'
  rwa [← Option.some.inj hr']

/-- The loop of `operator++` moves the iterator past the pages that have no more values. -/
theorem skip_spec (copyable : TriviallyCopyable R) (hlen : rs.length < 2 ^ 32) {fuel : Nat}
    (it : Iterator) (hfuel : rs.length ≤ it.currentThreadResultIndex + fuel) :
    rest copyable rs (Iterator.skip rs fuel it) = rest copyable rs it ∧
      (Iterator.skip rs fuel it).Valid rs := by
  induction fuel generalizing it with
  | zero =>
    refine ⟨rfl, fun r hr => ?_⟩
    have hlt : it.currentThreadResultIndex < rs.length := lt_length_of_getElem? hr
    omega
  | succ fuel ih =>
    unfold Iterator.skip
    cases hr : rs[it.currentThreadResultIndex]? with
    | none => exact ⟨rfl, Iterator.valid_of_none hr⟩
    | some r =>
      have hlt := lt_length_of_getElem? hr
      have hmod : (it.currentThreadResultIndex + 1) % 2 ^ 32 = it.currentThreadResultIndex + 1 :=
        Nat.mod_eq_of_lt (by omega)
      dsimp only
      split_ifs with hle
      · rw [hmod, rest_of_le it hr hle]
        exact ih _ (by dsimp only; omega)
      · exact ⟨rfl, Iterator.valid_of_lt hr (Nat.lt_of_not_le hle)⟩

/-- The loop of `begin` moves past the pages that are empty. -/
theorem nonEmptyThreadIndex_spec (copyable : TriviallyCopyable R) (hlen : rs.length < 2 ^ 32)
    {fuel i : Nat} (hfuel : rs.length ≤ i + fuel) :
    rest copyable rs ⟨nonEmptyThreadIndex rs fuel i, 0⟩ = rest copyable rs ⟨i, 0⟩ ∧
      Iterator.Valid rs ⟨nonEmptyThreadIndex rs fuel i, 0⟩ := by
  induction fuel generalizing i with
  | zero =>
    refine ⟨rfl, fun r hr => ?_⟩
    have hlt : i < rs.length := lt_length_of_getElem? hr
    omega
  | succ fuel ih =>
    unfold nonEmptyThreadIndex
    cases hr : rs[i]? with
    | none => exact ⟨rfl, Iterator.valid_of_none hr⟩
    | some r =>
      have hlt := lt_length_of_getElem? hr
      have hmod : (i + 1) % 2 ^ 32 = i + 1 := Nat.mod_eq_of_lt (by omega)
      dsimp only
      split_ifs with hpos
      · exact ⟨rfl, Iterator.valid_of_lt hr hpos⟩
      · rw [hmod, rest_of_le ⟨i, 0⟩ hr (by dsimp only; omega)]
        exact ih (by omega)

/-- The value of an iterator that is not at the end. -/
theorem rest_eq_cons {it : Iterator} {r : WorkerThreadResult} (hfits : r.Fits copyable)
    (hr : rs[it.currentThreadResultIndex]? = some r)
    (hlt : it.currentResultElementIndex < r.elementCount) :
    it.deref copyable rs = some (r.element copyable it.currentResultElementIndex) ∧
      rest copyable rs it = r.element copyable it.currentResultElementIndex ::
        rest copyable rs { it with currentResultElementIndex := it.currentResultElementIndex + 1 } := by
  constructor
  · unfold Iterator.deref
    rw [hr, Option.bind_some]
    refine if_pos (Nat.le_trans ?_ hfits)
    rw [← Nat.succ_mul, Nat.mul_comm]
    exact Nat.mul_le_mul_left _ hlt
  · have hlen : it.currentResultElementIndex < (r.values copyable).length := by
      rw [WorkerThreadResult.length_values]
      exact hlt
    simp only [rest, hr]
    rw [List.drop_eq_getElem_cons hlen, WorkerThreadResult.getElem_values]
    rfl

theorem rest_eq_nil {it : Iterator} (hr : rs[it.currentThreadResultIndex]? = none) :
    rest copyable rs it = [] := by
  unfold rest
  rw [hr]

/-- From an iterator at a value or at the end, the iteration yields what is before it. -/
theorem iterate_spec (hlen : rs.length < 2 ^ 32)
    (hrs : ∀ r ∈ rs, r.Fits copyable ∧ r.elementCount < 2 ^ 32) {m : Nat} {it : Iterator}
    (hm : (rest copyable rs it).length = m) (hvalid : it.Valid rs) :
    iterate copyable rs m it = some (rest copyable rs it) := by
  induction m generalizing it with
  | zero =>
    have hnil := List.eq_nil_of_length_eq_zero hm
    rw [hnil, iterate]
    refine if_pos (List.getElem?_eq_none_iff.mp ?_)
    by_contra hne
    obtain ⟨r, hr⟩ := Option.ne_none_iff_exists'.mp hne
    have hcons := (rest_eq_cons (hrs r (List.mem_of_getElem? hr)).1 hr (hvalid r hr)).2
    rw [hnil] at hcons
    cases hcons
  | succ m ih =>
    cases hr : rs[it.currentThreadResultIndex]? with
    | none =>
      rw [rest_eq_nil hr] at hm
      cases hm
    | some r =>
      obtain ⟨hfits, hcount⟩ := hrs r (List.mem_of_getElem? hr)
      have hlt := hvalid r hr
      obtain ⟨hderef, hrest⟩ := rest_eq_cons hfits hr hlt
      have hbefore : ¬ rs.length ≤ it.currentThreadResultIndex :=
        Nat.not_le.mpr (lt_length_of_getElem? hr)
      have hmod : (it.currentResultElementIndex + 1) % 2 ^ 32 = it.currentResultElementIndex + 1 :=
        Nat.mod_eq_of_lt (by omega)
      obtain ⟨hnext, hvalid'⟩ := skip_spec copyable hlen
        { it with currentResultElementIndex := it.currentResultElementIndex + 1 }
        (Nat.le_add_left rs.length _)
      rw [hrest, List.length_cons] at hm
      rw [iterate, if_neg hbefore, hderef, Option.bind_some, Iterator.next, hmod,
        ih (by rw [hnext]; exact Nat.succ.inj hm) hvalid', hnext, hrest]
      rfl

/-- An iteration that has ended yields the same, however many more iterations it may have. -/
theorem iterate_unique {m m' : Nat} {it : Iterator} {xs ys : List R}
    (hx : iterate copyable rs m it = some xs) (hy : iterate copyable rs m' it = some ys) : xs = ys := by
  induction m generalizing m' it xs ys with
  | zero =>
    rw [iterate] at hx
    split_ifs at hx with hend
    rw [← Option.some.inj hx]
    cases m' <;> rw [iterate, if_pos hend] at hy <;> exact Option.some.inj hy
  | succ m ih =>
    by_cases hend : rs.length ≤ it.currentThreadResultIndex
    · rw [iterate, if_pos hend] at hx
      rw [← Option.some.inj hx]
      cases m' <;> rw [iterate, if_pos hend] at hy <;> exact Option.some.inj hy
    · cases m' with
      | zero =>
        rw [iterate, if_neg hend] at hy
        cases hy
      | succ m' =>
        rw [iterate, if_neg hend] at hx hy
        obtain ⟨a, ha, hx⟩ := Option.bind_eq_some_iff.mp hx
        obtain ⟨b, hb, hy⟩ := Option.bind_eq_some_iff.mp hy
        obtain ⟨xs', hxs, rfl⟩ := Option.map_eq_some_iff.mp hx
        obtain ⟨ys', hys, rfl⟩ := Option.map_eq_some_iff.mp hy
        rw [Option.some.inj (ha.symm.trans hb), ih hxs hys]

/-- **Iteration.** From `begin` on, the iterator yields the values of all pages in order. -/
theorem iterate_begin (hlen : rs.length < 2 ^ 32)
    (hrs : ∀ r ∈ rs, r.Fits copyable ∧ r.elementCount < 2 ^ 32) :
    ∃ fuel, iterate copyable rs fuel (Iterator.begin rs) =
      some (rs.flatMap (·.values copyable)) := by
  obtain ⟨hrest, hvalid⟩ := nonEmptyThreadIndex_spec copyable hlen (Nat.le_add_left rs.length 0)
  rw [rest_zero 0, List.drop_zero] at hrest
  rw [← hrest]
  exact ⟨_, iterate_spec hlen hrs rfl hvalid⟩

end RatkiniaServer.Floweryclover.ParallelExecutor
