import PwFilter.Allocation
import PwFilter.Blacklist
import PwFilter.Utf

/-!
# Reading the word lists

A list file is read whole and scanned line by line; each line that is kept is
decoded and handed to a callback.  The file vector, each decoded string and
each insertion allocate.
-/

namespace PwFilter

open Allocation

/-- A path as the file functions find it: what is there, and which of the
calls on it succeed. -/
structure WinFile where
  content : List UInt8
  opens : Bool
  sizeKnown : Bool
  /-- What `ReadFile` delivers of a request, `none` when it fails. -/
  delivers : ℕ → Option ℕ
  maps : Bool
  views : Bool

def kMaxConfigFile : ℕ := 64 * 1024 * 1024

/-- `ReadWholeFile`; `none` when it returns false. -/
def readWholeFile (file : WinFile) : Alloc (Option (List UInt8)) :=
  if !file.opens then pure none
  else if !file.sizeKnown ∨ file.content.length > kMaxConfigFile then pure none
  else if file.content.isEmpty then pure (some [])
  else do
    Alloc.allocate
    if file.delivers file.content.length = some file.content.length then
      pure (some file.content)
    else pure none

/-! ## Lines -/

def isTrailingSpace (c : UInt8) : Bool := c = 0x0D || c = 0x20 || c = 0x09

def isLeadingSpace (c : UInt8) : Bool := c = 0x20 || c = 0x09

def trimEnd (data : List UInt8) (start : ℕ) : ℕ → ℕ
  | 0 => 0
  | e + 1 =>
      if e + 1 > start ∧ isTrailingSpace (data.getD e 0) then
        trimEnd data start e
      else e + 1

/-- The loop that moves `s` forward, with `left` units before `end`. -/
def trimStart (data : List UInt8) : ℕ → ℕ → ℕ
  | 0, s => s
  | left + 1, s =>
      if isLeadingSpace (data.getD s 0) then trimStart data left (s + 1) else s

section

variable {σ : Type}

def configLine (data : List UInt8) (fn : σ → List UInt16 → Alloc σ)
    (start i : ℕ) (st : σ) : Alloc σ :=
  let e := trimEnd data start i
  let s := trimStart data (e - start) start
  if e > s ∧ data.getD s 0 ≠ 0x23 then do
    Alloc.allocate
    fn st (utf8ToUtf16 ((data.drop s).take (e - s)))
  else pure st

/-- The line loop at `i`, with `left` bytes to go. -/
def configLoop (data : List UInt8) (fn : σ → List UInt16 → Alloc σ) :
    ℕ → ℕ → ℕ → σ → Alloc σ
  | 0, i, start, st => configLine data fn start i st
  | left + 1, i, start, st =>
      if data.getD i 0 = 0x0A then do
        let st ← configLine data fn start i st
        configLoop data fn left (i + 1) (i + 1) st
      else configLoop data fn left (i + 1) start st

def forEachConfigLine (data : List UInt8) (fn : σ → List UInt16 → Alloc σ)
    (st : σ) : Alloc σ :=
  let i :=
    if data.length ≥ 3 ∧ data.getD 0 0 = 0xEF ∧ data.getD 1 0 = 0xBB ∧
      data.getD 2 0 = 0xBF then 3 else 0
  configLoop data fn (data.length - i) i i st

end

/-! ## The two files -/

def addLine (bl : Blacklist) (line : List UInt16) : Alloc Blacklist :=
  if line.isEmpty then pure bl
  else do
    Alloc.allocate
    pure (bl.add line)

def pushLine (terms : List (List UInt16)) (line : List UInt16) :
    Alloc (List (List UInt16)) := do
  Alloc.allocate
  pure (terms ++ [line])

def loadBlacklistFile (bl : Blacklist) (file : WinFile) : Alloc Blacklist := do
  match ← readWholeFile file with
  | none => pure bl
  | some data => forEachConfigLine data addLine bl

def loadTermsFile (terms : List (List UInt16)) (file : WinFile) :
    Alloc (List (List UInt16)) := do
  match ← readWholeFile file with
  | none => pure terms
  | some data => forEachConfigLine data pushLine terms

end PwFilter
