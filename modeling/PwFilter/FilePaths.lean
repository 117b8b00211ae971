import PwFilter.FilterContext

/-!
# The files that are opened

`Create` goes through three fixed arrays for every path: the value it reads
from the registry, the directory or name it keeps, and the joined path.  Here
the paths are given as texts, without the arrays.
-/

namespace PwFilter

open ByteMemory

/-! ## Texts -/

/-- The text of a string value, as much of it as the array takes.  A value
that is longer than the array in bytes is not read at all, and an expandable
one is not expanded. -/
def registryText (key : RegKey) (name : String) : Option (List UInt16) :=
  match key name with
  | some value =>
      if value.data.length ≤ 2 * maxPath ∧
          (value.type = regSz ∨ value.type = regExpandSz) then
        some (cString ((wideUnits value.data).take (maxPath - 1)))
      else none
  | none => none

def underDir (dir file : List UInt16) : List UInt16 :=
  (dir ++ separator dir ++ file).take (maxPath - 1)

def programDataText (programData : Option (List UInt16)) : List UInt16 :=
  match programData with
  | some v =>
      if v ≠ [] ∧ v.length < maxPath then cString v
      else asciiUnits "C:\\ProgramData".toList
  | none => asciiUnits "C:\\ProgramData".toList

def dataDirText (host : Host) : List UInt16 :=
  (host.registry.bind fun key => registryText key "DataDir").getD
    (underDir (programDataText host.programData)
      (asciiUnits "PasswordFilter".toList))

def nameText (host : Host) (value default : String) : List UInt16 :=
  (host.registry.bind fun key => registryText key value).getD
    (asciiUnits default.toList)

/-- The path of a file that is set by `value` and has a default name. -/
def filePath (host : Host) (value default : String) : List UInt16 :=
  let file := nameText host value default
  if file[1]? = some 0x3A ∨ file.take 2 = [0x5C, 0x5C] then file
  else underDir (dataDirText host) file

/-! ## Arrays -/

/-- An array of `MAX_PATH` units with nothing behind it. -/
def IsPath (memory text : List UInt16) : Prop :=
  HoldsText memory maxPath text []

theorem wideUnits_length (bytes : List UInt8) :
    (wideUnits bytes).length = bytes.length / 2 := by
  fun_induction wideUnits bytes with
  | case1 low high rest ih =>
      rw [List.length_cons, ih, List.length_cons, List.length_cons]
      omega
  | case2 bytes hshort =>
      match bytes, hshort with
      | [], _ => rfl
      | [_], _ => simp
      | low :: high :: rest, hshort => exact (hshort low high rest rfl).elim

theorem IsPath.length {memory text : List UInt16} (h : IsPath memory text) :
    memory.length = maxPath := by
  obtain ⟨_, tail, hmemory, hlength⟩ := h
  rw [hmemory, List.append_nil, List.length_append, List.length_cons]
  exact hlength

theorem isPath_lstrcpynW
    {memory s : List UInt16} (hmemory : memory.length = maxPath)
    (rest : List UInt16) (hs : 0 ∉ s) :
    IsPath (lstrcpynW memory 0 (s ++ 0 :: rest) maxPath)
      (s.take (maxPath - 1)) := by
  have hroom : 0 < memory.length := by
    rw [hmemory]
    decide
  have hcopy : HoldsText
      (lstrcpynW ([] ++ (memory ++ [])) ([] : List UInt16).length
        (s ++ 0 :: rest) memory.length) maxPath (([] ++ s).take (maxPath - 1))
      [] :=
    holdsText_lstrcpynW [] memory rest List.not_mem_nil hs hroom
      ((Nat.zero_add _).trans hmemory)
  rw [List.append_nil, List.nil_append, hmemory] at hcopy
  exact hcopy

theorem lstrcpynW_text
    (dst : List UInt16) (off : ℕ) {s : List UInt16} (hs : 0 ∉ s) (n : ℤ) :
    lstrcpynW dst off s n = lstrcpynW dst off (s ++ 0 :: []) n := by
  rw [lstrcpynW, lstrcpynW, cString_of_zero_notMem hs,
    cString_append_zero [] hs]

theorem IsPath.copied
    {memory src text : List UInt16} (hmemory : memory.length = maxPath)
    (hsrc : IsPath src text) : IsPath (lstrcpynW memory 0 src maxPath) text := by
  have hfits := HoldsText.length_lt hsrc
  obtain ⟨htext, tail, hunits, _⟩ := hsrc
  have hwhole : text.take (maxPath - 1) = text :=
    List.take_of_length_le (by omega)
  have hcopy := isPath_lstrcpynW hmemory tail htext
  rw [hwhole] at hcopy
  rw [hunits, List.append_nil]
  exact hcopy

theorem isPath_appended
    {memory text file : List UInt16} (h : IsPath memory text)
    (rest : List UInt16) (hfile : 0 ∉ file) :
    IsPath (pathAppendSimple memory maxPath (file ++ 0 :: rest))
      (underDir text file) :=
  pathAppendSimple_spec h rest hfile (by decide)

theorem IsPath.joined
    {memory dir dirText file fileText : List UInt16}
    (hmemory : memory.length = maxPath) (hdir : IsPath dir dirText)
    (hfile : IsPath file fileText) :
    cString (joinPath memory maxPath dir file) =
      if fileText[1]? = some 0x3A ∨ fileText.take 2 = [0x5C, 0x5C] then
        fileText
      else underDir dirText fileText := by
  have hint : sizeToInt maxPath = maxPath := sizeToInt_eq (by decide)
  have hcopied := hfile.copied hmemory
  have hplaced := hdir.copied hmemory
  obtain ⟨htext, tail, hunits, _⟩ := hfile
  have habs := isAbsolute_iff tail htext
  rw [List.append_nil] at hunits
  rw [← hunits] at habs
  rw [joinPath, hint]
  by_cases habsolute : isAbsolute file = true
  · rw [if_pos habsolute, if_pos (habs.mp habsolute)]
    exact hcopied.cString
  · rw [if_neg habsolute, if_neg (fun h => habsolute (habs.mpr h)), hunits]
    exact (isPath_appended hplaced tail htext).cString

/-! ## Values -/

theorem pathMemory_length (host : Host) :
    host.pathMemory.toList.length = maxPath := Vector.length_toList

theorem isPath_regString
    {memory buf : List UInt16} (hmemory : memory.length = maxPath)
    {key : RegKey} {name : String}
    (hread : regString key name memory maxPath = some buf) :
    ∃ text, registryText key name = some text ∧ IsPath buf text := by
  unfold regString at hread
  unfold registryText
  cases hvalue : key name with
  | none =>
      rw [hvalue] at hread
      cases hread
  | some value =>
      simp only [hvalue] at hread ⊢
      rw [Nat.mul_comm 2 maxPath]
      split at hread
      · rename_i hkind
        rw [if_pos hkind]
        cases hread
        refine ⟨_, rfl, ?_⟩
        have hunits := wideUnits_length value.data
        generalize hchars : (if value.data.length / 2 ≥ maxPath then maxPath - 1
          else value.data.length / 2) = chars
        have hless : chars < maxPath := by
          rw [← hchars]
          split
          · decide
          · omega
        have hfits : (wideUnits value.data).length ≤ maxPath := by
          have h := hkind.1
          omega
        have htake : (wideUnits value.data).take (maxPath - 1) =
            (wideUnits value.data).take chars := by
          rw [← hchars]
          split
          · rfl
          · rw [List.take_of_length_le (by omega),
              List.take_of_length_le (by omega)]
        have hcount : ((wideUnits value.data).take chars).length = chars := by
          rw [List.length_take, ← hchars]
          split
          · omega
          · omega
        have hover : (wideUnits value.data).length =
            (memory.take (wideUnits value.data).length).length := by
          rw [List.length_take, hmemory]
          omega
        have hstored := store_part [] (memory.take (wideUnits value.data).length)
          (memory.drop (wideUnits value.data).length) 0 (wideUnits value.data)
          rfl hover
        rw [List.nil_append, List.nil_append, List.take_append_drop] at hstored
        have hplaced : (store memory 0 (wideUnits value.data)).length =
            maxPath := by
          rw [hstored, List.length_append, List.length_drop, hmemory]
          omega
        have hkept : (store memory 0 (wideUnits value.data)).take chars =
            (wideUnits value.data).take chars := by
          rw [hstored, List.take_append_of_le_length]
          rw [← hchars]
          split
          · omega
          · omega
        rw [htake, List.set_eq_take_append_cons_drop, if_pos (by omega), hkept]
        have hsize : ((wideUnits value.data).take chars).length +
            (((store memory 0 (wideUnits value.data)).drop
              (chars + 1)).length + 1) = maxPath := by
          rw [hcount, List.length_drop, hplaced]
          omega
        have hholds := holdsText_of_array _ _ [] hsize
        rw [List.append_nil] at hholds
        exact hholds
      · cases hread

theorem regString_none
    {memory : List UInt16} {key : RegKey} {name : String}
    (hread : regString key name memory maxPath = none) :
    registryText key name = none := by
  unfold regString at hread
  unfold registryText
  cases hvalue : key name with
  | none => rfl
  | some value =>
      simp only [hvalue] at hread ⊢
      rw [Nat.mul_comm 2 maxPath]
      split at hread
      · cases hread
      · rename_i hkind
        exact if_neg hkind

theorem isPath_readName
    (host : Host) (key : RegKey) (name : String) {dst text : List UInt16}
    (hdst : IsPath dst text) :
    IsPath (readName host key name dst)
      ((registryText key name).getD text) := by
  unfold readName
  cases hread : regString key name host.pathMemory.toList maxPath with
  | none =>
      rw [regString_none hread]
      exact hdst
  | some tmp =>
      obtain ⟨value, hvalue, htmp⟩ :=
        isPath_regString (pathMemory_length host) hread
      rw [hvalue]
      exact htmp.copied hdst.length

theorem isPath_default
    (host : Host) {name : List UInt16} (hname : 0 ∉ name)
    (hfits : name.length < maxPath) :
    IsPath (lstrcpynW host.pathMemory.toList 0 name maxPath) name := by
  have hcopy := isPath_lstrcpynW (pathMemory_length host) [] hname
  have hwhole : name.take (maxPath - 1) = name :=
    List.take_of_length_le (by omega)
  rw [hwhole] at hcopy
  rw [lstrcpynW_text _ _ hname]
  exact hcopy

theorem pathAppendSimple_text
    (buf : List UInt16) (cch : ℕ) {s : List UInt16} (hs : 0 ∉ s) :
    pathAppendSimple buf cch s = pathAppendSimple buf cch (s ++ 0 :: []) := by
  simp only [pathAppendSimple, lstrcpynW_text _ _ hs]

theorem isPath_programData
    {memory : List UInt16} (hmemory : memory.length = maxPath)
    (programData : Option (List UInt16)) :
    IsPath
      (let (n, buf) := getEnvironmentVariableW programData memory
        (maxPath % 2 ^ 32)
       if n = 0 ∨ n ≥ maxPath then
         lstrcpynW buf 0 (asciiUnits "C:\\ProgramData".toList)
           (sizeToInt maxPath)
       else buf)
      (programDataText programData) := by
  have hint : sizeToInt maxPath = maxPath := sizeToInt_eq (by decide)
  have hsize : maxPath % 2 ^ 32 = maxPath := by decide
  have hname : 0 ∉ asciiUnits "C:\\ProgramData".toList := by decide
  have hroot : IsPath
      (lstrcpynW memory 0 (asciiUnits "C:\\ProgramData".toList) maxPath)
      (asciiUnits "C:\\ProgramData".toList) := by
    rw [lstrcpynW_text _ _ hname]
    exact isPath_lstrcpynW hmemory [] hname
  rw [hint, hsize]
  unfold programDataText getEnvironmentVariableW
  cases programData with
  | none => exact hroot
  | some v =>
      by_cases hfits : v.length < maxPath
      · by_cases hempty : v = []
        · simp only [hempty]
          have hplaced : (store memory 0 ([] ++ [0])).length = maxPath := by
            cases memory with
            | nil => cases hmemory
            | cons u memory => exact hmemory
          have hcopy := isPath_lstrcpynW hplaced [] hname
          rw [← lstrcpynW_text _ _ hname] at hcopy
          exact hcopy
        · have hcount : ¬ (v.length = 0 ∨ v.length ≥ maxPath) := by
            rw [List.length_eq_zero_iff]
            rintro (h | h)
            · exact hempty h
            · omega
          simp only [if_pos hfits, if_neg hcount, if_pos (And.intro hempty hfits)]
          have hover : (v ++ [0]).length =
              (memory.take (v.length + 1)).length := by
            rw [List.length_append, List.length_singleton, List.length_take]
            omega
          have hstored := store_part [] (memory.take (v.length + 1))
            (memory.drop (v.length + 1)) 0 (v ++ [0]) rfl hover
          rw [List.nil_append, List.nil_append, List.take_append_drop]
            at hstored
          rw [hstored, List.append_assoc]
          have hsize : v.length + ((memory.drop (v.length + 1)).length + 1) =
              maxPath := by
            rw [List.length_drop]
            omega
          have hholds := holdsText_of_array v _ [] hsize
          rw [List.append_nil] at hholds
          exact hholds
      · have hlong : v.length + 1 = 0 ∨ v.length + 1 ≥ maxPath :=
          Or.inr (by omega)
        simp only [if_neg hfits, if_pos hlong,
          if_neg (fun h : v ≠ [] ∧ v.length < maxPath => hfits h.2)]
        exact hroot

theorem isPath_resolveDefaultDataDir
    {memory : List UInt16} (hmemory : memory.length = maxPath)
    (programData : Option (List UInt16)) :
    IsPath (resolveDefaultDataDir programData memory maxPath)
      (underDir (programDataText programData)
        (asciiUnits "PasswordFilter".toList)) := by
  have hroot := isPath_programData hmemory programData
  have hname : 0 ∉ asciiUnits "PasswordFilter".toList := by decide
  have happended := isPath_appended hroot [] hname
  rw [← pathAppendSimple_text _ _ hname] at happended
  exact happended

/-! ## Paths -/

theorem isPath_dataDir (host : Host) (c : PolicyConfig) :
    IsPath (readSettings host c).dataDir (dataDirText host) := by
  have hdefault := isPath_resolveDefaultDataDir (pathMemory_length host)
    host.programData
  unfold readSettings dataDirText
  cases host.registry with
  | none => exact hdefault
  | some key => exact isPath_readName host key "DataDir" hdefault

theorem isPath_named
    (host : Host) (value : String) {default : String}
    (hname : 0 ∉ asciiUnits default.toList)
    (hfits : (asciiUnits default.toList).length < maxPath) :
    IsPath
      (match host.registry with
        | none =>
            lstrcpynW host.pathMemory.toList 0 (asciiUnits default.toList)
              maxPath
        | some key =>
            readName host key value
              (lstrcpynW host.pathMemory.toList 0 (asciiUnits default.toList)
                maxPath))
      (nameText host value default) := by
  have hdefault := isPath_default host hname hfits
  unfold nameText
  cases host.registry with
  | none => exact hdefault
  | some key => exact isPath_readName host key value hdefault

theorem bloomName_eq (host : Host) (c : PolicyConfig) :
    (readSettings host c).bloomName =
      match host.registry with
      | none =>
          lstrcpynW host.pathMemory.toList 0
            (asciiUnits "breach.bloom".toList) maxPath
      | some key =>
          readName host key "BloomFile"
            (lstrcpynW host.pathMemory.toList 0
              (asciiUnits "breach.bloom".toList) maxPath) := by
  unfold readSettings
  cases host.registry with
  | none => dsimp only
  | some key => dsimp only

theorem blacklistName_eq (host : Host) (c : PolicyConfig) :
    (readSettings host c).blacklistName =
      match host.registry with
      | none =>
          lstrcpynW host.pathMemory.toList 0
            (asciiUnits "blacklist.txt".toList) maxPath
      | some key =>
          readName host key "BlacklistFile"
            (lstrcpynW host.pathMemory.toList 0
              (asciiUnits "blacklist.txt".toList) maxPath) := by
  unfold readSettings
  cases host.registry with
  | none => dsimp only
  | some key => dsimp only

theorem termsName_eq (host : Host) (c : PolicyConfig) :
    (readSettings host c).termsName =
      match host.registry with
      | none =>
          lstrcpynW host.pathMemory.toList 0
            (asciiUnits "company_terms.txt".toList) maxPath
      | some key =>
          readName host key "CompanyTermsFile"
            (lstrcpynW host.pathMemory.toList 0
              (asciiUnits "company_terms.txt".toList) maxPath) := by
  unfold readSettings
  cases host.registry with
  | none => dsimp only
  | some key => dsimp only

theorem Settings.file_of_isPath
    (host : Host) (c : PolicyConfig) {name text : List UInt16}
    (hname : IsPath name text) :
    (readSettings host c).file host name = host.files
      (if text[1]? = some 0x3A ∨ text.take 2 = [0x5C, 0x5C] then text
        else underDir (dataDirText host) text) := by
  rw [Settings.file,
    IsPath.joined (pathMemory_length host) (isPath_dataDir host c) hname]

theorem bloomFile_eq (host : Host) (c : PolicyConfig) :
    (readSettings host c).file host (readSettings host c).bloomName =
      host.files (filePath host "BloomFile" "breach.bloom") := by
  apply Settings.file_of_isPath
  rw [bloomName_eq]
  exact isPath_named host "BloomFile" (by decide) (by decide)

theorem blacklistFile_eq (host : Host) (c : PolicyConfig) :
    (readSettings host c).file host (readSettings host c).blacklistName =
      host.files (filePath host "BlacklistFile" "blacklist.txt") := by
  apply Settings.file_of_isPath
  rw [blacklistName_eq]
  exact isPath_named host "BlacklistFile" (by decide) (by decide)

theorem termsFile_eq (host : Host) (c : PolicyConfig) :
    (readSettings host c).file host (readSettings host c).termsName =
      host.files (filePath host "CompanyTermsFile" "company_terms.txt") := by
  apply Settings.file_of_isPath
  rw [termsName_eq]
  exact isPath_named host "CompanyTermsFile" (by decide) (by decide)

/-- Each of the three files is opened by its declared path: the name that the
registry or the default gives, below the directory unless it is absolute, cut
to the array. -/
theorem files_opened (host : Host) (c : PolicyConfig) :
    let settings := readSettings host c
    settings.file host settings.bloomName =
        host.files (filePath host "BloomFile" "breach.bloom") ∧
      settings.file host settings.blacklistName =
        host.files (filePath host "BlacklistFile" "blacklist.txt") ∧
      settings.file host settings.termsName =
        host.files (filePath host "CompanyTermsFile" "company_terms.txt") :=
  ⟨bloomFile_eq host c, blacklistFile_eq host c, termsFile_eq host c⟩

end PwFilter
