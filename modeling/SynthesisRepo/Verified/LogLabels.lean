import SynthesisRepo.LogPipe.Common

/-! # Category labels of log records

`LogData::CreateLogStruct` labels a record `[<category> <value>-<index>]`, numbering the
records of each category with the category's counter in `Common::indices`.

**Main results**

* `logLabel_injective`: a label gives back its category and, for a nonnegative index, the
  index; the category name ends at the first space and the index is read back from its
  decimal digits.
* `runLogCalls_labels_fresh`: over any run whose counters stay below the `int` overflow point
  and that calls `GetNextIndex` with no category name, every label carries an index above
  its category's counter at the start, and the labels are distinct.
* `runLogCalls_labels_distinct`: from the empty map of a fresh process, the labels of the
  returned records are pairwise distinct when no category is used more than `2^31 - 1` times.
-/

namespace SynthesisRepo.Verified

open LogPipe

/-! ## Equations of the model -/

@[simp] theorem runLogCalls_createLogStruct (indices : Indices) (levelCode : LevelCode)
    (categoryInfo : LogCategory) (taskInfo : String) (calls : List LogCall) :
    (runLogCalls indices (.createLogStruct levelCode categoryInfo taskInfo :: calls)).1 =
      (createLogStruct indices levelCode categoryInfo taskInfo).1 ::
        (runLogCalls (createLogStruct indices levelCode categoryInfo taskInfo).2 calls).1 := rfl

@[simp] theorem runLogCalls_getNextIndex (indices : Indices) (messagelabel : String)
    (calls : List LogCall) :
    runLogCalls indices (.getNextIndex messagelabel :: calls) =
      runLogCalls (getNextIndex indices messagelabel).2 calls := rfl

theorem createLogStruct_snd (indices : Indices) (levelCode : LevelCode)
    (categoryInfo : LogCategory) (taskInfo : String) :
    (createLogStruct indices levelCode categoryInfo taskInfo).2 =
      (getNextIndex indices (logCategoryToString categoryInfo)).2 := rfl

theorem createLogStruct_category (indices : Indices) (levelCode : LevelCode)
    (categoryInfo : LogCategory) (taskInfo : String) :
    (createLogStruct indices levelCode categoryInfo taskInfo).1.category =
      logLabel categoryInfo (getNextIndex indices (logCategoryToString categoryInfo)).1 := rfl

theorem getNextIndex_snd_of_ne {indices : Indices} {key key' : String} (ne : key' ≠ key) :
    (getNextIndex indices key).2 key' = indices key' := Function.update_noteq ne _ _

theorem getNextIndex_snd_self (indices : Indices) (key : String) :
    (getNextIndex indices key).2 key = (getNextIndex indices key).1 := Function.update_same _ _ _

@[simp] theorem categoryInfo?_createLogStruct (levelCode : LevelCode) (categoryInfo : LogCategory)
    (taskInfo : String) :
    (LogCall.createLogStruct levelCode categoryInfo taskInfo).categoryInfo? = some categoryInfo :=
  rfl

@[simp] theorem categoryInfo?_getNextIndex (messagelabel : String) :
    (LogCall.getNextIndex messagelabel).categoryInfo? = none := rfl

/-! ## Decimal digits -/

/-- The number a list of decimal digit characters spells, read after the digits of `acc`. -/
def decimalValue (acc : Nat) (digits : List Char) : Nat :=
  digits.foldl (fun value digit => 10 * value + (digit.toNat - 48)) acc

theorem digitChar_toNat : ∀ d < 10, (Nat.digitChar d).toNat - 48 = d := by
  decide

/-- One step of `Nat.toDigitsCore` in base ten: the last digit is prepended, and the rest
of the number follows while it is not zero. -/
theorem toDigitsCore_succ (fuel n : Nat) (ds : List Char) :
    Nat.toDigitsCore 10 (fuel + 1) n ds =
      if n / 10 = 0 then Nat.digitChar (n % 10) :: ds
      else Nat.toDigitsCore 10 fuel (n / 10) (Nat.digitChar (n % 10) :: ds) := rfl

/-- Reading one more digit. -/
theorem decimalValue_digitChar_cons (acc n : Nat) (ds : List Char) :
    decimalValue acc (Nat.digitChar (n % 10) :: ds) = decimalValue (10 * acc + n % 10) ds := by
  rw [decimalValue, List.foldl_cons, digitChar_toNat _ (Nat.mod_lt n (by omega))]
  rfl

theorem decimalValue_toDigitsCore (fuel n : Nat) (ds : List Char) (h : n < fuel) :
    decimalValue 0 (Nat.toDigitsCore 10 fuel n ds) = decimalValue n ds := by
  induction fuel generalizing n ds with
  | zero => omega
  | succ fuel ih =>
    rw [toDigitsCore_succ]
    split
    · rw [decimalValue_digitChar_cons]; congr 1; omega
    · rw [ih _ _ (by omega), decimalValue_digitChar_cons]; congr 1; omega

theorem decimalValue_repr (n : Nat) : decimalValue 0 (Nat.repr n).data = n :=
  decimalValue_toDigitsCore (n + 1) n [] (by omega)

theorem natRepr_injective : Function.Injective Nat.repr := fun m n same => by
  rw [← decimalValue_repr m, ← decimalValue_repr n, same]

/-- Below the overflow point the `int` increment does not wrap. -/
theorem wrapInt_of_lt {n : Int} (nonneg : 0 ≤ n) (lt : n < 2 ^ 31) : wrapInt n = n := by
  have mod : n % ((2 ^ 32 : Nat) : Int) = n := Int.emod_eq_of_lt nonneg (by omega)
  rw [wrapInt, Int.bmod_pos _ _ (by rw [mod]; omega), mod]

/-! ## Labels -/

theorem logCategoryToString_injective : Function.Injective logCategoryToString := by
  intro a b same
  cases a <;> cases b <;> first | rfl | exact absurd same (by decide)

/-- The category name is what follows the `[` up to the first space. -/
theorem logLabel_category_name (c : LogCategory) (i : Int) :
    ((logLabel c i).data.drop 1).takeWhile (· != ' ') = (logCategoryToString c).data := by
  have noSpace : ∀ x ∈ (logCategoryToString c).data, (x != ' ') = true := by
    cases c <;> decide
  simp [logLabel, List.takeWhile_append_of_pos noSpace]

/-- A label determines its category, and its index when the index is nonnegative. -/
theorem logLabel_injective {c c' : LogCategory} {i j : Int} (hi : 0 ≤ i) (hj : 0 ≤ j)
    (same : logLabel c i = logLabel c' j) : c = c' ∧ i = j := by
  obtain rfl : c = c' := logCategoryToString_injective <| String.ext <| by
    rw [← logLabel_category_name c i, ← logLabel_category_name c' j, same]
  have lists := congrArg String.data same
  simp only [logLabel, String.data_append] at lists
  have digits := List.append_cancel_left (List.append_cancel_right lists)
  obtain ⟨m, rfl⟩ := Int.eq_ofNat_of_zero_le hi
  obtain ⟨n, rfl⟩ := Int.eq_ofNat_of_zero_le hj
  exact ⟨rfl, congrArg _ (natRepr_injective (String.ext digits))⟩

/-! ## Counters along a run -/

/-- Below the overflow point `GetNextIndex` returns the counter plus one. -/
theorem getNextIndex_fst {indices : Indices} {key : String} (nonneg : 0 ≤ indices key)
    (lt : indices key + 1 < 2 ^ 31) : (getNextIndex indices key).1 = indices key + 1 :=
  wrapInt_of_lt (by omega) lt

/-- Every category's counter is a valid index, and it stays below the `int` overflow point
through the `CreateLogStruct` calls still to come. -/
def CountersFit (indices : Indices) (calls : List LogCall) : Prop :=
  ∀ c, 0 ≤ indices (logCategoryToString c) ∧
    indices (logCategoryToString c) + calls.countP (fun call => call.categoryInfo? = some c) <
      2 ^ 31

variable {indices : Indices} {calls : List LogCall} {levelCode : LevelCode}
  {categoryInfo : LogCategory} {taskInfo : String}

/-- The counters still fit for the calls after a direct `GetNextIndex` call of a key that is
no category name. -/
theorem CountersFit.tail_getNextIndex {key : String}
    (fits : CountersFit indices (.getNextIndex key :: calls))
    (notName : ∀ c, logCategoryToString c ≠ key) :
    CountersFit (getNextIndex indices key).2 calls := fun c => by
  simpa [getNextIndex_snd_of_ne (notName c), List.countP_cons] using fits c

/-- While the counters fit, a `CreateLogStruct` call numbers its record with its category's
counter plus one. -/
theorem CountersFit.createLogStruct_index
    (fits : CountersFit indices (.createLogStruct levelCode categoryInfo taskInfo :: calls)) :
    (getNextIndex indices (logCategoryToString categoryInfo)).1 =
      indices (logCategoryToString categoryInfo) + 1 := by
  have := fits categoryInfo
  simp only [List.countP_cons, categoryInfo?_createLogStruct, decide_True, if_pos] at this
  exact getNextIndex_fst this.1 (by omega)

/-- The counters still fit for the calls after a `CreateLogStruct` call. -/
theorem CountersFit.tail_createLogStruct
    (fits : CountersFit indices (.createLogStruct levelCode categoryInfo taskInfo :: calls)) :
    CountersFit (createLogStruct indices levelCode categoryInfo taskInfo).2 calls := fun c => by
  rw [createLogStruct_snd]
  by_cases same : c = categoryInfo
  · subst same
    have := fits c
    simp only [List.countP_cons, categoryInfo?_createLogStruct, decide_True, if_pos] at this
    rw [getNextIndex_snd_self, fits.createLogStruct_index]
    omega
  · have ne : logCategoryToString c ≠ logCategoryToString categoryInfo :=
      fun h => same (logCategoryToString_injective h)
    simpa [getNextIndex_snd_of_ne ne, List.countP_cons, Ne.symm same] using fits c

/-- A `CreateLogStruct` call never lowers a counter. -/
theorem createLogStruct_snd_ge (fits : CountersFit indices
      (.createLogStruct levelCode categoryInfo taskInfo :: calls)) (c : LogCategory) :
    indices (logCategoryToString c) ≤
      (createLogStruct indices levelCode categoryInfo taskInfo).2 (logCategoryToString c) := by
  rw [createLogStruct_snd]
  by_cases same : logCategoryToString c = logCategoryToString categoryInfo
  · rw [same, getNextIndex_snd_self, fits.createLogStruct_index]
    omega
  · have kept : (getNextIndex indices (logCategoryToString categoryInfo)).2 (logCategoryToString c) =
        indices (logCategoryToString c) := getNextIndex_snd_of_ne same
    omega

/-- Over a run, every label is that of a category with an index above the category's counter
at the start, and the labels are distinct. -/
theorem runLogCalls_labels_fresh (fits : CountersFit indices calls)
    (direct : ∀ c, LogCall.getNextIndex (logCategoryToString c) ∉ calls) :
    (∀ data ∈ (runLogCalls indices calls).1, ∃ c i, data.category = logLabel c i ∧
        indices (logCategoryToString c) < i) ∧
      ((runLogCalls indices calls).1.map LogData.category).Nodup := by
  induction calls generalizing indices with
  | nil => simp [runLogCalls]
  | cons call calls ih =>
    have later : ∀ c, LogCall.getNextIndex (logCategoryToString c) ∉ calls :=
      fun c mem => direct c (List.mem_cons_of_mem _ mem)
    cases call with
    | getNextIndex key =>
      have notName : ∀ c, logCategoryToString c ≠ key :=
        fun c same => direct c (same ▸ List.mem_cons_self _ _)
      simpa [getNextIndex_snd_of_ne (notName _)] using
        ih (fits.tail_getNextIndex notName) later
    | createLogStruct levelCode categoryInfo taskInfo =>
      obtain ⟨fresh, nodup⟩ := ih fits.tail_createLogStruct later
      have label := createLogStruct_category indices levelCode categoryInfo taskInfo
      rw [fits.createLogStruct_index] at label
      have nonneg := (fits categoryInfo).1
      simp only [runLogCalls_createLogStruct, List.forall_mem_cons, List.map_cons,
        List.nodup_cons]
      refine ⟨⟨⟨categoryInfo, _, label, by omega⟩, fun data mem => ?_⟩, fun mem => ?_, nodup⟩
      · obtain ⟨c, i, labelled, above⟩ := fresh data mem
        exact ⟨c, i, labelled, by have := createLogStruct_snd_ge fits c; omega⟩
      · obtain ⟨data, mem, same⟩ := List.mem_map.1 mem
        obtain ⟨c, i, labelled, above⟩ := fresh data mem
        have low := createLogStruct_snd_ge fits c
        have start := (fits c).1
        obtain ⟨rfl, rfl⟩ :=
          logLabel_injective (by omega) (by omega) (label.symm.trans (same.symm.trans labelled))
        rw [createLogStruct_snd, getNextIndex_snd_self, fits.createLogStruct_index] at above
        omega

/-! ## From a fresh process -/

theorem runLogCalls_labels_distinct (calls : List LogCall)
    (bounded : ∀ c, calls.countP (fun call => call.categoryInfo? = some c) ≤ 2 ^ 31 - 1)
    (throughCreate : ∀ c, LogCall.getNextIndex (logCategoryToString c) ∉ calls) :
    ((runLogCalls Indices.empty calls).1.map LogData.category).Nodup :=
  have fits : CountersFit Indices.empty calls := fun c =>
    ⟨Int.le_refl 0, by have := bounded c; simp only [Indices.empty]; omega⟩
  (runLogCalls_labels_fresh fits throughCreate).2

/-- Two records of one category, a direct `GetNextIndex` call on another key between them,
and a record of a second category. -/
def sampleLogCalls : List LogCall :=
  [.createLogStruct .INFO_LOG .SYNTHESIS "opt", .getNextIndex "task",
    .createLogStruct .WARNING_LOG .SYNTHESIS "map", .createLogStruct .INFO_LOG .NETLIST "write"]

theorem runLogCalls_labels_distinct_sample :
    ((runLogCalls Indices.empty sampleLogCalls).1.map LogData.category).Nodup :=
  runLogCalls_labels_distinct sampleLogCalls (fun c => by cases c <;> decide)
    (fun c => by cases c <;> decide)

example : (runLogCalls Indices.empty sampleLogCalls).1.map LogData.category =
    ["[Synthesis 8-1]", "[Synthesis 8-2]", "[Netlist 22-1]"] := by
  decide

end SynthesisRepo.Verified
