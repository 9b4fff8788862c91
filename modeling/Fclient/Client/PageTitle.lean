import Fclient.Base.Regex
import Fclient.Jni

/-!
# The title of a page

`testHttpClient` fetches the page that the back end serves and takes its title out of it. The
pattern is compiled with `DOTALL`, so that the dot stands for any character: a surrogate pair, or
another single code unit.
-/

namespace Fclient.Client

open Base

def isHighSurrogate (c : JChar) : Bool := 0xD800 ≤ c ∧ c ≤ 0xDBFF

def isLowSurrogate (c : JChar) : Bool := 0xDC00 ≤ c ∧ c ≤ 0xDFFF

/-- `Character.charCount(Character.codePointAt(s, 0))`, and 0 at the end of the string. -/
def charCount : JString → Nat
  | [] => 0
  | [_] => 1
  | c :: d :: _ => if isHighSurrogate c && isLowSurrogate d then 2 else 1

theorem charCount_le (s : JString) : charCount s ≤ s.length := by
  match s with
  | [] => exact Nat.le_refl 0
  | [_] => exact Nat.le_refl 1
  | c :: d :: s =>
    simp only [charCount, List.length_cons]
    split <;> omega

def dotAll : CharClass JChar := ⟨charCount, charCount_le⟩

/-- `Pattern.compile("<title>(.+?)</title>", Pattern.DOTALL)`. -/
def titlePattern : Regex JChar :=
  .seq (.literal (jstr "<title>"))
    (.seq (.group (.reluctantPlus dotAll)) (.literal (jstr "</title>")))

def getPageTitle (html : JString) : JString :=
  match titlePattern.find html with
  | some matcher => (matcher.group 1).getD []
  | none => jstr "Not found"

/-- The page of the back end: `getTitle` of `SampleController`. -/
def getTitle : JString := jstr "<title>My_Backend_First_Title</title>"

end Fclient.Client
