import PwFilter.DllMain

/-!
# The event log

What the package reports, and to which source.  The texts are wide strings in
arrays on the stack, which start with whatever was in their memory: the count
of blacklist entries in decimal, and the name of the account, cut to its array.
-/

namespace PwFilter

open ByteMemory

/-! ## Arrays on the stack -/

/-- The digit loop of `UlongToW` at `i`, with `left` places before ten. -/
def digitLoop : ℕ → UInt32 → List UInt16 → ℕ → List UInt16 × ℕ
  | 0, _, tmp, i => (tmp, i)
  | left + 1, v, tmp, i =>
      if v ≠ 0 then
        digitLoop left (v / 10) (tmp.set i (0x30 + (v % 10).toUInt16)) (i + 1)
      else (tmp, i)

/-- The loop that copies the digits back, last one first. -/
def copyLoop (tmp : List UInt16) : ℕ → List UInt16 → ℕ → List UInt16 × ℕ
  | 0, buf, j => (buf, j)
  | i + 1, buf, j => copyLoop tmp i (buf.set j (tmp.getD i 0)) (j + 1)

/-- `tmp` and `buf` when `UlongToW` returns. -/
def ulongToW (v : UInt32) (tmp buf : List UInt16) :
    List UInt16 × List UInt16 :=
  if v = 0 then (tmp, (buf.set 0 0x30).set 1 0)
  else
    let (tmp, i) := digitLoop 10 v tmp 0
    let (buf, j) := copyLoop tmp i buf 0
    (tmp, buf.set j 0)

def copyName (dst : List UInt16) (cch : ℕ) (s : Option UnicodeString) :
    List UInt16 :=
  if cch = 0 then dst
  else
    match s with
    | none => dst.set 0 0
    | some s =>
        match s.buffer with
        | none => dst.set 0 0
        | some units =>
            if s.length = 0 then dst.set 0 0
            else
              let n := s.length.toNat / 2
              let n := if n ≥ cch then cch - 1 else n
              (store dst 0 (units.take n)).set n 0

/-! ## Events -/

inductive EventType where
  | information
  | warning
  deriving DecidableEq, Repr

inductive MessageId where
  | passwordRejected
  | filterInitialized
  | internalError
  | bloomUnavailable
  deriving DecidableEq, Repr

/-- One call of `ReportEventW`. -/
structure Event where
  type : EventType
  message : MessageId
  strings : List (List UInt16)
  deriving DecidableEq

def ruleNameW : RuleId → List UInt16
  | .ok => asciiUnits "Ok".toList
  | .tooShort => asciiUnits "TooShort".toList
  | .tooLong => asciiUnits "TooLong".toList
  | .notEnoughClasses => asciiUnits "NotEnoughClasses".toList
  | .repeatRun => asciiUnits "RepeatRun".toList
  | .sequence => asciiUnits "Sequence".toList
  | .keyboardPattern => asciiUnits "KeyboardPattern".toList
  | .containsAccountName => asciiUnits "ContainsAccountName".toList
  | .containsFullName => asciiUnits "ContainsFullName".toList
  | .companyTerm => asciiUnits "CompanyTerm".toList
  | .blacklisted => asciiUnits "Blacklisted".toList
  | .breached => asciiUnits "Breached".toList
  | .internalError => asciiUnits "InternalError".toList

/-- `g_log`, with the handle of its source. -/
structure EventLog where
  source : Option ℕ := none

/-- The arrays the reports are written in, before anything is. -/
structure LogMemory where
  tmp : Vector UInt16 11
  countBuf : Vector UInt16 11
  accountBuf : Vector UInt16 256

namespace EventLog

/-- Nothing is reported without a source. -/
def report (log : EventLog) (event : Event) : List Event :=
  match log.source with
  | none => []
  | some _ => [event]

def reportInitialized (log : EventLog) (memory : LogMemory)
    (breachEnabled : Bool) (blacklistCount : UInt32) : List Event :=
  log.report
    { type := .information
      message := .filterInitialized
      strings :=
        [ if breachEnabled then asciiUnits "enabled".toList
          else asciiUnits "disabled".toList,
          cString (ulongToW blacklistCount memory.tmp.toList
            memory.countBuf.toList).2 ] }

def reportRejected (log : EventLog) (account : List UInt16)
    (setOperation : Bool) (rule : RuleId) : List Event :=
  log.report
    { type := .information
      message := .passwordRejected
      strings :=
        [ cString account,
          if setOperation then asciiUnits "admin set".toList
          else asciiUnits "user change".toList,
          ruleNameW rule ] }

def reportInternalError (log : EventLog) (place account : List UInt16) :
    List Event :=
  log.report
    { type := .warning
      message := .internalError
      strings := [place, account] }

def reportBloomUnavailable (log : EventLog) (detail : List UInt16) :
    List Event :=
  log.report
    { type := .warning
      message := .bloomUnavailable
      strings := [detail] }

end EventLog

/-! ## Decimal counts -/

def digitUnit (d : ℕ) : UInt16 := 0x30 + UInt16.ofNat d

def decimal (n : ℕ) : List UInt16 :=
  if n = 0 then [0x30] else (Nat.digits 10 n).reverse.map digitUnit

/-- The loop puts the digits at `i`, lowest first, and changes nothing else. -/
theorem digitLoop_spec
    (left : ℕ) (v : UInt32) (tmp : List UInt16) {i : ℕ}
    (hroom : i + left < tmp.length) (hfits : v.toNat < 10 ^ left) :
    digitLoop left v tmp i =
      (tmp.take i ++ (Nat.digits 10 v.toNat).map digitUnit ++
          tmp.drop (i + (Nat.digits 10 v.toNat).length),
        i + (Nat.digits 10 v.toNat).length) := by
  induction left generalizing v tmp i with
  | zero =>
      have hzero : v.toNat = 0 := by
        rw [pow_zero] at hfits
        omega
      simp [digitLoop, hzero]
  | succ left ih =>
      by_cases hv : v = 0
      · simp [digitLoop, hv]
      · have hpos : 0 < v.toNat := by
          rw [Nat.pos_iff_ne_zero]
          intro hzero
          exact hv (UInt32.toNat_inj.mp hzero)
        have hdiv : (v / 10).toNat = v.toNat / 10 := UInt32.toNat_div v 10
        have hmod : (v % 10).toUInt16 = UInt16.ofNat (v.toNat % 10) := by
          rw [← UInt16.toNat_inj, UInt32.toNat_toUInt16, UInt32.toNat_mod,
            UInt16.toNat_ofNat']
          rfl
        have hless : (v / 10).toNat < 10 ^ left := by
          rw [hdiv]
          rw [pow_succ] at hfits
          omega
        have hdigits : Nat.digits 10 v.toNat =
            v.toNat % 10 :: Nat.digits 10 (v / 10).toNat := by
          rw [hdiv]
          exact Nat.digits_def' (by norm_num) hpos
        have hroom' :
            i + 1 + left < (tmp.set i (0x30 + (v % 10).toUInt16)).length := by
          rw [List.length_set]
          omega
        have hcount : i + (Nat.digits 10 v.toNat).length =
            i + 1 + (Nat.digits 10 (v / 10).toNat).length := by
          rw [hdigits, List.length_cons]
          omega
        have hset : (tmp.set i (0x30 + (v % 10).toUInt16)).take (i + 1) =
            tmp.take i ++ [digitUnit (v.toNat % 10)] := by
          rw [hmod, List.take_add_one, List.take_set_of_le (Nat.le_refl i),
            List.getElem?_set_self (by omega)]
          rfl
        rw [digitLoop, if_pos hv, ih (v / 10) _ hroom' hless, hset,
          List.drop_set_of_lt (by omega), hcount, hdigits, List.map_cons]
        simp

theorem copyLoop_eq
    {tmp : List UInt16} {i : ℕ} (hi : i ≤ tmp.length) (buf : List UInt16)
    (j : ℕ) :
    copyLoop tmp i buf j = (store buf j (tmp.take i).reverse, j + i) := by
  induction i generalizing buf j with
  | zero => rfl
  | succ i ih =>
      have hget : tmp[i]? = some tmp[i] := List.getElem?_eq_getElem (by omega)
      have htake : tmp.take (i + 1) = tmp.take i ++ [tmp[i]] := by
        rw [List.take_add_one, hget]
        rfl
      have hsum : j + 1 + i = j + (i + 1) := by omega
      rw [copyLoop, ih (by omega), hsum, htake, List.reverse_append,
        List.getD_eq_getElem?_getD, hget]
      rfl

theorem digitUnit_toNat {d : ℕ} (hd : d < 10) :
    (digitUnit d).toNat = 0x30 + d := by
  have hbase : UInt16.toNat 0x30 = 0x30 := rfl
  rw [digitUnit, UInt16.toNat_add, UInt16.toNat_ofNat', hbase]
  omega

theorem digit_units (n : ℕ) :
    ∀ u ∈ (Nat.digits 10 n).map digitUnit, 0x30 ≤ u.toNat ∧ u.toNat ≤ 0x39 := by
  intro u hu
  obtain ⟨d, hd, rfl⟩ := List.mem_map.mp hu
  have hlt : d < 10 := Nat.digits_lt_base (by norm_num) hd
  rw [digitUnit_toNat hlt]
  omega

theorem decimal_units (n : ℕ) :
    ∀ u ∈ decimal n, 0x30 ≤ u.toNat ∧ u.toNat ≤ 0x39 := by
  intro u hu
  unfold decimal at hu
  split at hu
  · rw [List.mem_singleton] at hu
    rw [hu]
    decide
  · rw [List.map_reverse, List.mem_reverse] at hu
    exact digit_units n u hu

theorem zero_notMem_decimal (n : ℕ) : (0 : UInt16) ∉ decimal n := by
  intro hzero
  have hdigit := (decimal_units n 0 hzero).1
  exact absurd hdigit (by decide)

theorem decimal_length_le {n : ℕ} (hn : n < 10 ^ 10) : (decimal n).length ≤ 10 := by
  unfold decimal
  split
  · simp
  · rw [List.length_map, List.length_reverse]
    exact (Nat.digits_length_le_iff (by norm_num) n).mpr hn

theorem foldr_digitUnit
    {digits : List ℕ} (hdigits : ∀ d ∈ digits, d < 10) :
    (digits.map digitUnit).foldr
        (fun u value => value * 10 + (u.toNat - 0x30)) 0 =
      Nat.ofDigits 10 digits := by
  induction digits with
  | nil => rfl
  | cons d digits ih =>
      have hrest := ih fun e he => hdigits e (List.mem_cons_of_mem d he)
      rw [List.map_cons, List.foldr_cons, hrest,
        digitUnit_toNat (hdigits d List.mem_cons_self), Nat.ofDigits_cons]
      omega

/-- The digits read back are the number. -/
theorem decimal_value (n : ℕ) :
    (decimal n).foldl (fun value u => value * 10 + (u.toNat - 0x30)) 0 = n := by
  unfold decimal
  split
  · rename_i hzero
    rw [hzero]
    rfl
  · have hdigits : ∀ d ∈ Nat.digits 10 n, d < 10 :=
      fun d hd => Nat.digits_lt_base (by norm_num) hd
    rw [List.map_reverse, List.foldl_reverse, foldr_digitUnit hdigits,
      Nat.ofDigits_digits]

/-- Only the number zero starts with the digit zero. -/
theorem decimal_head (n : ℕ) : (decimal n).head? = some 0x30 ↔ n = 0 := by
  unfold decimal
  split
  · rename_i hzero
    simp [hzero]
  · rename_i hpos
    have hne : Nat.digits 10 n ≠ [] := Nat.digits_ne_nil_iff_ne_zero.mpr hpos
    have hlast := Nat.getLast_digit_ne_zero 10 hpos
    have hlt : (Nat.digits 10 n).getLast hne < 10 :=
      Nat.digits_lt_base (by norm_num) (List.getLast_mem hne)
    rw [List.map_reverse, List.head?_reverse, List.getLast?_map,
      List.getLast?_eq_getLast_of_ne_nil hne, Option.map_some,
      Option.some.injEq, ← UInt16.toNat_inj, digitUnit_toNat hlt]
    have hbase : UInt16.toNat 0x30 = 0x30 := rfl
    omega

/-- The count is written in decimal, with its terminator, and both arrays have
room for all their writes. -/
theorem ulongToW_exact
    (v : UInt32) (tmp buffer : Vector UInt16 11)
    (behindTmp beyond : List UInt16) :
    ∃ tmp' : List UInt16, tmp'.length = 11 ∧
      (ulongToW v (tmp.toList ++ behindTmp) (buffer.toList ++ beyond)).1 =
        tmp' ++ behindTmp ∧
      HoldsText
        (ulongToW v (tmp.toList ++ behindTmp) (buffer.toList ++ beyond)).2 11
        (decimal v.toNat) beyond := by
  have htmp : tmp.toList.length = 11 := Vector.length_toList
  have hbuffer : buffer.toList.length = 11 := Vector.length_toList
  have hlt : v.toNat < 10 ^ 10 := by
    have hv := v.toNat_lt
    omega
  have hlength := decimal_length_le hlt
  have hholds := holdsText_store [] (decimal v.toNat) buffer.toList beyond
    (by simp) (zero_notMem_decimal _) (by omega)
    (by rw [List.length_nil, hbuffer, Nat.zero_add])
  rw [List.nil_append, List.nil_append, List.length_nil] at hholds
  by_cases hv : v = 0
  · have hzero : decimal v.toNat = [0x30] := by rw [hv]; rfl
    rw [hzero] at hholds ⊢
    rw [ulongToW, if_pos hv]
    exact ⟨tmp.toList, htmp, rfl, hholds⟩
  · have hne : v.toNat ≠ 0 := by
      intro hzero
      exact hv (UInt32.toNat_inj.mp hzero)
    have hcount : (Nat.digits 10 v.toNat).length =
        (decimal v.toNat).length := by
      rw [decimal, if_neg hne, List.length_map, List.length_reverse]
    have hroom : 0 + 10 < (tmp.toList ++ behindTmp).length := by
      rw [List.length_append, htmp]
      omega
    have hrun := digitLoop_spec 10 v (tmp.toList ++ behindTmp) hroom hlt
    rw [List.take_zero, List.nil_append, Nat.zero_add,
      List.drop_append_of_le_length (by omega), ← List.append_assoc] at hrun
    generalize hwritten : (Nat.digits 10 v.toNat).map digitUnit ++
      tmp.toList.drop (Nat.digits 10 v.toNat).length = tmp' at hrun
    have hsize : tmp'.length = 11 := by
      rw [← hwritten, List.length_append, List.length_map, List.length_drop,
        htmp]
      omega
    have hdecimal : ((tmp' ++ behindTmp).take
        (Nat.digits 10 v.toNat).length).reverse = decimal v.toNat := by
      rw [← hwritten, List.append_assoc, List.take_left' (List.length_map _),
        decimal, if_neg hne, List.map_reverse]
    have hplaces : (Nat.digits 10 v.toNat).length ≤
        (tmp' ++ behindTmp).length := by
      rw [List.length_append, hsize]
      omega
    have hcopy := copyLoop_eq hplaces (buffer.toList ++ beyond) 0
    rw [hdecimal, Nat.zero_add] at hcopy
    rw [store_append, Nat.zero_add] at hholds
    refine ⟨tmp', hsize, ?_, ?_⟩
    · simp only [ulongToW, if_neg hv, hrun, hcopy]
    · simp only [ulongToW, if_neg hv, hrun, hcopy]
      rw [hcount]
      exact hholds

/-- Every count is printed in decimal, `0` for zero and else without leading
zeros; neither array is written behind its end. -/
theorem printed_count_exact
    (v : UInt32) (tmp buffer : Vector UInt16 11)
    (behindTmp beyond : List UInt16) :
    ∃ text tmp' buffer' : List UInt16,
      ulongToW v (tmp.toList ++ behindTmp) (buffer.toList ++ beyond) =
        (tmp' ++ behindTmp, buffer' ++ beyond) ∧
      tmp'.length = 11 ∧ buffer'.length = 11 ∧
      cString buffer' = text ∧ text = decimal v.toNat ∧
      text.length ≤ 10 ∧ text.length < buffer'.length ∧
      (∀ u ∈ text, 0x30 ≤ u.toNat ∧ u.toNat ≤ 0x39) ∧
      text.foldl (fun value u => value * 10 + (u.toNat - 0x30)) 0 = v.toNat ∧
      (text.head? = some 0x30 ↔ v = 0) := by
  obtain ⟨tmp', hsize, htmp, htext, tail, hmemory, hcount⟩ :=
    ulongToW_exact v tmp buffer behindTmp beyond
  have hlt : v.toNat < 10 ^ 10 := by
    have hv := v.toNat_lt
    omega
  have hlength := decimal_length_le hlt
  have hfront : (decimal v.toNat ++ 0 :: tail).length = 11 := by
    rw [List.length_append, List.length_cons, hcount]
  refine ⟨decimal v.toNat, tmp', decimal v.toNat ++ 0 :: tail, ?_, hsize,
    hfront, ?_, rfl, hlength, by omega, decimal_units v.toNat,
    decimal_value v.toNat, ?_⟩
  · rw [← htmp, List.append_assoc, List.cons_append, ← hmemory]
  · exact cString_append_zero tail htext
  · rw [decimal_head, ← UInt32.toNat_zero, UInt32.toNat_inj]

/-! ## Names in events -/

/-- A name that is there is copied unit by unit, as much as there is room for,
and is read up to its first zero. -/
theorem copyName_exact
    {cch : ℕ} (buffer beyond : List UInt16) (hcch : 1 ≤ cch)
    (hbuffer : buffer.length = cch) {s : Option UnicodeString}
    (hs : ∀ name ∈ s, name.WellFormed) :
    HoldsText (copyName (buffer ++ beyond) cch s) cch
      (cString ((viewString s).take (cch - 1))) beyond := by
  have hempty : HoldsText ((buffer ++ beyond).set 0 0) cch [] beyond := by
    cases buffer with
    | nil =>
        rw [List.length_nil] at hbuffer
        omega
    | cons u buffer =>
        rw [List.length_cons] at hbuffer
        exact ⟨List.not_mem_nil, buffer, rfl, by rw [List.length_nil]; omega⟩
  have hpos : ¬ cch = 0 := by omega
  unfold copyName viewString
  rw [if_neg hpos]
  cases s with
  | none => simpa [cString] using hempty
  | some name =>
      cases hunits : name.buffer with
      | none => simpa [cString, hunits] using hempty
      | some units =>
          by_cases hlength : name.length = 0
          · simpa [cString, hunits, hlength] using hempty
          · have hfits := (hs name rfl).2
            rw [hunits] at hfits
            simp only [hunits, if_neg hlength]
            generalize hn : (if name.length.toNat / 2 ≥ cch then cch - 1
              else name.length.toNat / 2) = n
            have hless : n < cch := by
              rw [← hn]
              split
              · omega
              · omega
            have hle : n ≤ name.length.toNat / 2 := by
              rw [← hn]
              split
              · omega
              · omega
            have hmin : min (cch - 1) (name.length.toNat / 2) = n := by
              rw [← hn]
              split
              · omega
              · omega
            have hcount : (units.take n).length = n :=
              List.length_take_of_le (le_trans hle hfits)
            have hsplit : buffer ++ beyond =
                buffer.take n ++ (buffer.drop n ++ beyond) := by
              rw [← List.append_assoc, List.take_append_drop]
            have hover : store (buffer ++ beyond) 0 (units.take n) =
                units.take n ++ (buffer.drop n ++ beyond) := by
              have hpart := store_part [] (buffer.take n)
                (buffer.drop n ++ beyond) 0 (units.take n) rfl
                (by rw [hcount, List.length_take]; omega)
              rw [List.nil_append, List.nil_append] at hpart
              rw [hsplit]
              exact hpart
            have hdrop : buffer.drop n = buffer[n] :: buffer.drop (n + 1) :=
              List.drop_eq_getElem_cons (by omega)
            rw [hover, List.set_append_right _ _ (by omega), hcount,
              Nat.sub_self, hdrop, List.take_take, hmin]
            exact holdsText_of_array (units.take n) (buffer.drop (n + 1)) beyond
              (by rw [hcount, List.length_drop]; omega)

end PwFilter
