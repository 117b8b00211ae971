import PwFilter.ByteMemory
import PwFilter.Complexity

/-!
# Path buffers

Paths are built in wide character arrays.  A buffer is the memory from the
start of the array on, and `cch` is the size the code passes for it; nothing
stops a write past it but the code itself.
-/

namespace PwFilter

open ByteMemory

def maxPath : ℕ := 260

def cString (buf : List UInt16) : List UInt16 := buf.takeWhile (· ≠ 0)

def lstrlenW (buf : List UInt16) : ℕ := (cString buf).length

/-- `static_cast<int>` of a size. -/
def sizeToInt (n : ℕ) : ℤ := (BitVec.ofNat 32 n).toInt

/-- `lstrcpynW(dst + off, src, n)` copies at most `n - 1` units and always
terminates; there is no room for a terminator when `n ≤ 0`. -/
def lstrcpynW (dst : List UInt16) (off : ℕ) (src : List UInt16) (n : ℤ) :
    List UInt16 :=
  if n ≤ 0 then dst
  else store dst off ((cString src).take (n.toNat - 1) ++ [0])

def isAbsolute (p : List UInt16) : Bool :=
  (p.getD 0 0 ≠ 0 && p.getD 1 0 = 0x3A) ||
    (p.getD 0 0 = 0x5C && p.getD 1 0 = 0x5C)

def pathAppendSimple (buf : List UInt16) (cch : ℕ) (part : List UInt16) :
    List UInt16 :=
  let len := lstrlenW buf
  let (buf, len) :=
    if len > 0 ∧ buf.getD (len - 1) 0 ≠ 0x5C ∧ len + 1 < cch then
      (store buf len [0x5C, 0], len + 1)
    else (buf, len)
  if len < cch then lstrcpynW buf len part (sizeToInt (cch - len))
  else buf

/-- The length of the value when it fits, else the size it needs. -/
def getEnvironmentVariableW (value : Option (List UInt16))
    (buf : List UInt16) (cch : ℕ) : ℕ × List UInt16 :=
  match value with
  | none => (0, buf)
  | some v =>
      if v.length < cch then (v.length, store buf 0 (v ++ [0]))
      else (v.length + 1, buf)

def resolveDefaultDataDir (programData : Option (List UInt16))
    (buf : List UInt16) (cch : ℕ) : List UInt16 :=
  let (n, buf) := getEnvironmentVariableW programData buf (cch % 2 ^ 32)
  let buf :=
    if n = 0 ∨ n ≥ cch then
      lstrcpynW buf 0 (asciiUnits "C:\\ProgramData".toList) (sizeToInt cch)
    else buf
  pathAppendSimple buf cch (asciiUnits "PasswordFilter".toList)

def joinPath (dst : List UInt16) (cch : ℕ) (dir file : List UInt16) :
    List UInt16 :=
  if isAbsolute file then lstrcpynW dst 0 file (sizeToInt cch)
  else pathAppendSimple (lstrcpynW dst 0 dir (sizeToInt cch)) cch file

/-- A relative name goes below the directory. -/
example : cString (joinPath (List.replicate 16 7) 16
    (asciiUnits ['C', ':', '\\', 'd']) (asciiUnits ['f', '.', 't'])) =
    asciiUnits ['C', ':', '\\', 'd', '\\', 'f', '.', 't'] := by
  decide

/-! ## Joining -/

theorem sizeToInt_eq {n : ℕ} (hn : n < 2 ^ 31) : sizeToInt n = n := by
  rw [sizeToInt, BitVec.toInt_eq_toNat_bmod, BitVec.toNat_ofNat, Int.bmod_def]
  omega

theorem cString_append_zero
    {text : List UInt16} (rest : List UInt16) (htext : 0 ∉ text) :
    cString (text ++ 0 :: rest) = text := by
  have hkeep : ∀ u ∈ text, (decide (u ≠ 0)) = true := by
    intro u hu
    rw [decide_eq_true_eq]
    rintro rfl
    exact htext hu
  rw [cString, List.takeWhile_append_of_pos hkeep,
    List.takeWhile_cons_of_neg (by decide), List.append_nil]

/-- The array of `cch` units in front of `beyond` holds `text`. -/
def HoldsText (memory : List UInt16) (cch : ℕ) (text beyond : List UInt16) :
    Prop :=
  0 ∉ text ∧ ∃ tail, memory = text ++ 0 :: (tail ++ beyond) ∧
    text.length + (tail.length + 1) = cch

theorem HoldsText.cString
    {memory text beyond : List UInt16} {cch : ℕ}
    (h : HoldsText memory cch text beyond) : cString memory = text := by
  obtain ⟨htext, tail, hmemory, _⟩ := h
  rw [hmemory]
  exact cString_append_zero _ htext

theorem cString_cons (u : UInt16) (units : List UInt16) :
    cString (u :: units) = if u = 0 then [] else u :: cString units := by
  by_cases hu : u = 0
  · rw [if_pos hu, cString, List.takeWhile_cons_of_neg (by simp [hu])]
  · rw [if_neg hu, cString, List.takeWhile_cons_of_pos (by simp [hu])]
    rfl

theorem cString_of_zero_notMem {units : List UInt16} (hunits : 0 ∉ units) :
    cString units = units := by
  induction units with
  | nil => rfl
  | cons u units ih =>
      rw [List.mem_cons, not_or] at hunits
      rw [cString_cons, if_neg (fun h => hunits.1 h.symm), ih hunits.2]

/-- What is terminated inside the array is a text, up to its first zero. -/
theorem holdsText_of_array
    (array tail beyond : List UInt16) {cch : ℕ}
    (hcch : array.length + (tail.length + 1) = cch) :
    HoldsText (array ++ 0 :: (tail ++ beyond)) cch (PwFilter.cString array)
      beyond := by
  induction array generalizing cch with
  | nil => exact ⟨List.not_mem_nil, tail, rfl, hcch⟩
  | cons u array ih =>
      rw [List.length_cons] at hcch
      rw [cString_cons]
      split
      · rename_i hu
        refine ⟨List.not_mem_nil, array ++ 0 :: tail, by simp [hu], ?_⟩
        simp only [List.length_nil, List.length_append, List.length_cons]
        omega
      · rename_i hu
        have hrest : array.length + (tail.length + 1) = cch - 1 := by omega
        obtain ⟨htext, rest, hmemory, hlength⟩ := ih hrest
        refine ⟨?_, rest, ?_, ?_⟩
        · rw [List.mem_cons, not_or]
          exact ⟨fun h => hu h.symm, htext⟩
        · rw [List.cons_append, hmemory, List.cons_append]
        · rw [List.length_cons]
          omega

theorem holdsText_store
    (text s old beyond : List UInt16) {cch : ℕ} (htext : 0 ∉ text)
    (hs : 0 ∉ s) (hroom : s.length < old.length)
    (hcch : text.length + old.length = cch) :
    HoldsText (store (text ++ (old ++ beyond)) text.length (s ++ [0])) cch
      (text ++ s) beyond := by
  have hold : old ++ beyond =
      old.take (s.length + 1) ++ (old.drop (s.length + 1) ++ beyond) := by
    rw [← List.append_assoc, List.take_append_drop]
  have hover : (s ++ [0]).length = (old.take (s.length + 1)).length := by
    rw [List.length_append, List.length_singleton, List.length_take]
    omega
  refine ⟨by simp [htext, hs], old.drop (s.length + 1), ?_, ?_⟩
  · rw [hold, store_part text _ _ _ _ rfl hover]
    simp
  · rw [List.length_append, List.length_drop]
    omega

theorem HoldsText.split
    {memory text beyond : List UInt16} {cch : ℕ}
    (h : HoldsText memory cch text beyond) :
    ∃ buffer, memory = buffer ++ beyond ∧ buffer.length = cch ∧ 0 ∈ buffer ∧
      PwFilter.cString buffer = text := by
  obtain ⟨htext, tail, hmemory, hlength⟩ := h
  refine ⟨text ++ 0 :: tail, ?_, ?_, ?_, cString_append_zero tail htext⟩
  · rw [hmemory, List.append_assoc]
    rfl
  · rw [List.length_append, List.length_cons]
    exact hlength
  · exact List.mem_append_right _ List.mem_cons_self

theorem HoldsText.length_lt
    {memory text beyond : List UInt16} {cch : ℕ}
    (h : HoldsText memory cch text beyond) : text.length < cch := by
  obtain ⟨_, tail, _, hlength⟩ := h
  omega

theorem HoldsText.separate
    {memory text beyond : List UInt16} {cch : ℕ}
    (h : HoldsText memory cch text beyond) (hfits : text.length + 1 < cch) :
    HoldsText (store memory text.length [0x5C, 0]) cch (text ++ [0x5C])
      beyond := by
  obtain ⟨htext, tail, hmemory, hlength⟩ := h
  rw [hmemory]
  exact holdsText_store text [0x5C] (0 :: tail) beyond htext (by decide)
    (by rw [List.length_singleton, List.length_cons]; omega) hlength

/-- Copying behind `text` appends as much as there is room for. -/
theorem holdsText_lstrcpynW
    (text old : List UInt16) {s beyond : List UInt16} {cch : ℕ}
    (rest : List UInt16) (htext : 0 ∉ text) (hs : 0 ∉ s) (hroom : 0 < old.length)
    (hcch : text.length + old.length = cch) :
    HoldsText
      (lstrcpynW (text ++ (old ++ beyond)) text.length (s ++ 0 :: rest)
        old.length) cch ((text ++ s).take (cch - 1)) beyond := by
  have hcut : 0 ∉ s.take (old.length - 1) :=
    fun hmem => hs (List.mem_of_mem_take hmem)
  have hless : (s.take (old.length - 1)).length < old.length := by
    rw [List.length_take]
    omega
  have hcount : cch - 1 - text.length = old.length - 1 := by omega
  have htake : (text ++ s).take (cch - 1) =
      text ++ s.take (old.length - 1) := by
    rw [List.take_append, List.take_of_length_le (by omega), hcount]
  rw [lstrcpynW, if_neg (by omega), Int.toNat_natCast,
    cString_append_zero rest hs, htake]
  exact holdsText_store _ _ _ _ htext hcut hless hcch

theorem isAbsolute_iff
    {file : List UInt16} (rest : List UInt16) (hfile : 0 ∉ file) :
    isAbsolute (file ++ 0 :: rest) = true ↔
      file[1]? = some 0x3A ∨ file.take 2 = [0x5C, 0x5C] := by
  match file, hfile with
  | [], _ => simp [isAbsolute]
  | [a], _ => simp [isAbsolute]
  | a :: b :: file, hfile =>
      have ha : a ≠ 0 := by
        rintro rfl
        exact hfile List.mem_cons_self
      simp [isAbsolute, ha]

/-- One backslash goes behind a directory that is not empty and does not end
in one. -/
def separator (dir : List UInt16) : List UInt16 :=
  if dir ≠ [] ∧ dir.getLast? ≠ some 0x5C then [0x5C] else []

theorem HoldsText.append
    {memory text beyond s : List UInt16} {cch : ℕ}
    (h : HoldsText memory cch text beyond) (rest : List UInt16)
    (hs : 0 ∉ s) (hcch : cch < 2 ^ 31) :
    HoldsText
      (lstrcpynW memory text.length (s ++ 0 :: rest)
        (sizeToInt (cch - text.length))) cch ((text ++ s).take (cch - 1))
      beyond := by
  obtain ⟨htext, tail, hmemory, hlength⟩ := h
  have hroom : cch - text.length = (0 :: tail).length := by
    rw [List.length_cons]
    omega
  rw [sizeToInt_eq (by omega), hroom, hmemory]
  exact holdsText_lstrcpynW text (0 :: tail) rest htext hs
    (Nat.succ_pos _) hlength

theorem HoldsText.last
    {memory text beyond : List UInt16} {cch : ℕ}
    (h : HoldsText memory cch text beyond) (hne : text ≠ []) :
    text.getLast? = some (memory.getD (text.length - 1) 0) := by
  obtain ⟨_, tail, hmemory, _⟩ := h
  have hpos := List.length_pos_iff.mpr hne
  have hlast : text.length - 1 < text.length := by omega
  rw [hmemory, List.getD_eq_getElem?_getD, List.getElem?_append_left hlast,
    List.getElem?_eq_getElem hlast, List.getLast?_eq_getElem?,
    List.getElem?_eq_getElem hlast]
  rfl

/-- The guard of the separator, read off the text the array holds. -/
theorem HoldsText.separator_guard
    {memory text beyond : List UInt16} {cch : ℕ}
    (h : HoldsText memory cch text beyond) :
    (text.length > 0 ∧ memory.getD (text.length - 1) 0 ≠ 0x5C ∧
        text.length + 1 < cch) ↔
      separator text = [0x5C] ∧ text.length + 1 < cch := by
  have hlast : (text.length > 0 ∧ memory.getD (text.length - 1) 0 ≠ 0x5C) ↔
      (text ≠ [] ∧ text.getLast? ≠ some 0x5C) := by
    rw [gt_iff_lt, List.length_pos_iff]
    apply and_congr_right
    intro hne
    rw [h.last hne, ne_eq, ne_eq, Option.some.injEq]
  rw [← and_assoc, hlast, separator]
  by_cases hsep : text ≠ [] ∧ text.getLast? ≠ some 0x5C
  · simp [hsep]
  · simp [hsep]

/-- A separator that is not needed or does not fit changes nothing. -/
theorem take_separator
    {text s : List UInt16} {cch : ℕ} (hless : text.length < cch)
    (hnone : ¬ (separator text = [0x5C] ∧ text.length + 1 < cch)) :
    (text ++ separator text ++ s).take (cch - 1) =
      (text ++ s).take (cch - 1) := by
  by_cases hsep : text ≠ [] ∧ text.getLast? ≠ some 0x5C
  · have hone : separator text = [0x5C] := if_pos hsep
    have hfull : cch - 1 = text.length := by
      have hfits : ¬ text.length + 1 < cch := fun h => hnone ⟨hone, h⟩
      omega
    rw [hfull, List.append_assoc, List.take_left, List.take_left]
  · have hempty : separator text = [] := if_neg hsep
    rw [hempty, List.append_nil]

theorem pathAppendSimple_spec
    {memory text beyond s : List UInt16} {cch : ℕ}
    (h : HoldsText memory cch text beyond) (rest : List UInt16)
    (hs : 0 ∉ s) (hcch : cch < 2 ^ 31) :
    HoldsText (pathAppendSimple memory cch (s ++ 0 :: rest)) cch
      ((text ++ separator text ++ s).take (cch - 1)) beyond := by
  have hlen : lstrlenW memory = text.length := by rw [lstrlenW, h.cString]
  have hguard := h.separator_guard
  rw [pathAppendSimple, hlen]
  by_cases hsep : separator text = [0x5C] ∧ text.length + 1 < cch
  · have hcount : (text ++ [0x5C]).length = text.length + 1 :=
      List.length_append
    have happend := (h.separate hsep.2).append rest hs hcch
    rw [hcount] at happend
    simp only [if_pos (hguard.mpr hsep), if_pos hsep.2]
    rw [hsep.1]
    exact happend
  · simp only [if_neg (mt hguard.mp hsep), if_pos h.length_lt]
    rw [take_separator h.length_lt hsep]
    exact h.append rest hs hcch

/-- `JoinPath` truncates the joined text to the array, terminates it and
writes nothing behind the array. -/
theorem joinPath_truncates
    (cch : ℕ) (buffer beyond dir dirRest file fileRest : List UInt16)
    (hcch : 1 ≤ cch) (hint : cch ≤ 2 ^ 31 - 1) (hbuffer : buffer.length = cch)
    (hdir : 0 ∉ dir) (hfile : 0 ∉ file) (hless : dir.length < cch) :
    ∃ buffer',
      joinPath (buffer ++ beyond) cch (dir ++ 0 :: dirRest)
          (file ++ 0 :: fileRest) = buffer' ++ beyond ∧
        buffer'.length = cch ∧ 0 ∈ buffer' ∧
        cString buffer' =
          ((if file[1]? = some 0x3A ∨ file.take 2 = [0x5C, 0x5C] then file
            else dir ++ separator dir ++ file).take (cch - 1)) := by
  have hcopy : ∀ {s : List UInt16} (rest : List UInt16), 0 ∉ s →
      HoldsText
        (lstrcpynW (buffer ++ beyond) 0 (s ++ 0 :: rest) (sizeToInt cch)) cch
        (s.take (cch - 1)) beyond := by
    intro s rest hs
    rw [sizeToInt_eq (by omega), ← hbuffer]
    exact holdsText_lstrcpynW [] buffer rest (by simp) hs (by omega)
      (Nat.zero_add _)
  have hholds : HoldsText
      (joinPath (buffer ++ beyond) cch (dir ++ 0 :: dirRest)
        (file ++ 0 :: fileRest)) cch
      ((if file[1]? = some 0x3A ∨ file.take 2 = [0x5C, 0x5C] then file
        else dir ++ separator dir ++ file).take (cch - 1)) beyond := by
    have habs := isAbsolute_iff fileRest hfile
    by_cases habsolute : isAbsolute (file ++ 0 :: fileRest) = true
    · rw [joinPath, if_pos habsolute, if_pos (habs.mp habsolute)]
      exact hcopy fileRest hfile
    · have hwhole : dir.take (cch - 1) = dir :=
        List.take_of_length_le (by omega)
      have hstart := hcopy dirRest hdir
      rw [hwhole] at hstart
      rw [joinPath, if_neg habsolute, if_neg (fun h => habsolute (habs.mpr h))]
      exact pathAppendSimple_spec hstart fileRest hfile (by omega)
  exact hholds.split

/-- A directory that fills all but one unit leaves no room for the name. -/
theorem joinPath_truncates_exact_fit :
    ∃ buffer',
      joinPath ([7, 7, 7, 7] ++ [9, 9]) 4 ([0x43, 0x3A, 0x64] ++ 0 :: [])
          ([0x66] ++ 0 :: []) = buffer' ++ [9, 9] ∧
        buffer'.length = 4 ∧ 0 ∈ buffer' ∧
        cString buffer' = [0x43, 0x3A, 0x64] :=
  joinPath_truncates 4 [7, 7, 7, 7] [9, 9] [0x43, 0x3A, 0x64] [] [0x66] []
    (by decide) (by decide) rfl (by decide) (by decide) (by decide)

/-- The size is cast to `int`, so four gigabytes of units and two more count
as two. -/
theorem joinPath_cuts_short :
    cString (joinPath (List.replicate 0x100000002 7) 0x100000002 [0x64, 0]
        [0x43, 0x3A, 0x5C, 0x78, 0]) = [0x43] ∧
      [0x43, 0x3A, 0x5C, 0x78].take (0x100000002 - 1) ≠ [(0x43 : UInt16)] := by
  constructor
  · have hcount : sizeToInt 0x100000002 = 2 := by decide
    have hcopy : cString [0x43, 0x3A, 0x5C, 0x78, 0] =
        [0x43, 0x3A, 0x5C, 0x78] := by decide
    have hholds := holdsText_store [] [0x43]
      (List.replicate 0x100000002 7) [] (by simp)
      (by decide) (by rw [List.length_replicate]; norm_num) rfl
    rw [List.append_nil] at hholds
    rw [joinPath, if_pos (by decide), lstrcpynW, hcount, if_neg (by decide),
      hcopy]
    exact hholds.cString
  · decide

end PwFilter
