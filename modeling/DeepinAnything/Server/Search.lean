import DeepinAnything.FsBuf.RuleSearch
import DeepinAnything.FsBuf.PathName
import DeepinAnything.Lib.Paging
import DeepinAnything.Server.EventAdaptor

/-!
# Searching an index page by page (`lftmanager.cpp`)

A search of `LFTManager` comes with rules, among them how many results are wanted and where the search
starts and ends, and returns where the next search has to start. The index leaves out what is below the
excluded directories it meets; what a search that starts behind such a directory finds there,
`_doSearch` filters out by its path, and searches again until there are enough results.
-/

namespace DeepinAnything.Server

open ByteMem OrderedForest OrderedForest.Forest Paging

/-! ## Rules -/

/-- A rule string `0xHH<text>`. -/
structure Rule where
  flag : ℕ
  text : QString
deriving DecidableEq

/-- The text of an `int` in a rule. -/
def decimal (n : ℤ) : QString :=
  if n < 0 then '-' :: Nat.toDigits 10 n.natAbs else Nat.toDigits 10 n.natAbs

/-- The value of a digit. -/
def digitValue (c : Char) : Option ℕ :=
  if '0' ≤ c ∧ c ≤ '9' then some (c.toNat - 48)
  else if 'a' ≤ c ∧ c ≤ 'f' then some (c.toNat - 87)
  else if 'A' ≤ c ∧ c ≤ 'F' then some (c.toNat - 55)
  else none

/-- The number that digits stand for. -/
def digitsValue (base : ℕ) (digits : QString) : Option ℕ :=
  if digits = [] then none
  else digits.foldlM (fun n c => ((digitValue c).filter (· < base)).map (base * n + ·)) 0

/-- `QChar::isSpace` -/
def isSpace (c : Char) : Bool :=
  c.toNat ∈ [0x20, 0x85, 0xA0, 0x1680, 0x2028, 0x2029, 0x202F, 0x205F, 0x3000] ∨
    9 ≤ c.toNat ∧ c.toNat ≤ 13 ∨ 0x2000 ≤ c.toNat ∧ c.toNat ≤ 0x200A

/-- The text of a number in Qt, without the white space around it. -/
def trimmed (text : QString) : QString :=
  ((text.dropWhile isSpace).reverse.dropWhile isSpace).reverse

/-- The number that a text without a sign stands for, with its base in front as in C. -/
def unsignedValue (text : QString) : Option ℕ :=
  match text with
  | '0' :: 'x' :: digits => digitsValue 16 digits
  | '0' :: 'X' :: digits => digitsValue 16 digits
  | '0' :: digits => digitsValue 8 ('0' :: digits)
  | digits => digitsValue 10 digits

/-- `QString::toUInt` with base 0, which is 0 for what is not a number. -/
def toUInt (text : QString) : ℕ :=
  let text := trimmed text
  let text := if text.head? = some '+' then text.tail else text
  ((unsignedValue text).filter (· < 2 ^ 32)).getD 0

/-- `QString::toLatin1`, up to a terminator. -/
def toLatin1 (text : QString) : Bytes :=
  (text.map fun c => if c.toNat < 256 then UInt8.ofNat c.toNat else 63).takeWhile (· ≠ 0)

/-- `_getRuleArgs` -/
def getRuleArgs (rules : List Rule) (searchFlag : ℕ) : Option ℕ :=
  if searchFlag ≥ ruleExcludeSubS then none
  else (rules.find? (·.flag = searchFlag)).map fun rule => toUInt rule.text

/-- `_getRuleStrings` -/
def getRuleStrings (rules : List Rule) (searchFlag : ℕ) : List QString :=
  if searchFlag < ruleExcludeSubS then [] else (rules.filter (·.flag = searchFlag)).map Rule.text

/-- What can go wrong in a search: a write outside a buffer, or a loop that does not end. -/
inductive Fault where
  | outOfBounds
  | endless
deriving DecidableEq, Repr

/-- The room for a target in `search_rule`, with its terminator. -/
def targetSize : ℕ := 255

/-- One turn of the loop of `_parseRules`. -/
def parseRule (rule : Rule) : Except Fault SearchRule :=
  if (toLatin1 rule.text).length < targetSize then .ok ⟨rule.flag % 256, toLatin1 rule.text⟩
  else .error .outOfBounds

/-- `_parseRules`, with no rules for a list that is not used. -/
def parseRules (rules : List Rule) : Except Fault (List SearchRule) := do
  let parsed ← rules.mapM parseRule
  return if (parsed.head?.map SearchRule.flag).getD ruleNone = ruleNone then [] else parsed

/-- `_setRulesByDefault` -/
def setRulesByDefault (rules : List Rule) (startOffset endOffset : ℕ) : List Rule :=
  let byDefault := fun (flag : ℕ) (n : ℤ) =>
    if (getRuleArgs rules flag).isNone then [Rule.mk flag (decimal n)] else []
  byDefault ruleSearchRegx 0 ++ byDefault ruleSearchMaxCount (-1) ++ byDefault ruleSearchIcase 0 ++
    byDefault ruleSearchStartoff startOffset ++ byDefault ruleSearchEndoff endOffset ++ rules

/-! ## The code -/

/-- What a search asks of Qt, of the state of the manager, and of memory that has not been set. -/
structure SearchEnv where
  fromLocal8Bit : Bytes → QString
  toLocal8Bit : QString → Bytes
  matcher : Matcher
  poolThreads : ℕ
  convertPathIntoMountPoint : QString → QString
  getFsBufByPath : QString → QString × Option FsBuf
  uninitialized : ℕ

def pathMax : ℕ := 4096

def defaultResultCount : ℕ := 100

/-- `get_path_by_name_off` into a `tmp_path` of `PATH_MAX` bytes. -/
def namePath (b : FsBuf) (nameOff : ℕ) : Except Fault Bytes :=
  match b.doGetPathByNameOff nameOff ⟨fun _ => 0⟩ pathMax with
  | .written path dst => .ok (path.cstr (pathMax - dst) dst)
  | .outOfBounds => .error .outOfBounds
  | .endless => .error .endless

/-- `EMPTY_DIR` and the other results of `_prepareBuf` that are not a success. -/
inductive SearchError where
  | nofoundIndex
  | buildingIndex
  | emptyDir
deriving DecidableEq, Repr

/-- What `_enterSearch` returns; the offsets are not set when the search has not begun. -/
structure PageReply where
  list : List QString
  offsets : Option (ℕ × ℕ)
deriving DecidableEq

namespace SearchEnv

variable (env : SearchEnv)

/-- `_prepareBuf`: the offsets, the buffer and the path in it. -/
def prepareBuf (startOffset endOffset : ℕ) (path : QString) :
    Except SearchError (ℕ × ℕ × FsBuf × QString) :=
  match env.getFsBufByPath path with
  | (newpath, buf) =>
    if newpath = [] then .error .nofoundIndex
    else
      match buf with
      | none => .error .buildingIndex
      | some buf =>
        let (startOffset, endOffset) :=
          if startOffset = 0 ∨ endOffset = 0 then
            match buf.getPathRange (env.toLocal8Bit newpath) with
            | some (_, startOff, endOff) => (startOff, endOff)
            | none => (env.uninitialized, 0)
          else (startOffset, endOffset)
        if startOffset = 0 then .error .emptyDir else .ok (startOffset, endOffset, buf, newpath)

/-- The path of a result holds an excluded beginning of a name behind the path that is searched. -/
def shouldFilter (path : QString) (excludeStartStrs : List QString) (namePath : Bytes) : Bool :=
  let originPath := (env.fromLocal8Bit namePath).drop path.length
  excludeStartStrs.any fun startStr => ('/' :: startStr) <:+: originPath

/-- The loop of `_doSearch` over the offsets of one search: the results, and where the next one starts. -/
def filterLoop (b : FsBuf) (path : QString) (excludeStartStrs : List QString) (reqNumber stop : ℕ) :
    List ℕ → List ℕ → ℕ → Except Fault (List ℕ × ℕ)
  | [], results, start => .ok (results, start)
  | off :: offs, results, start =>
    if off ≥ stop then filterLoop b path excludeStartStrs reqNumber stop offs results start
    else if results.length ≥ reqNumber then .ok (results, off)
    else if excludeStartStrs = [] then
      filterLoop b path excludeStartStrs reqNumber stop offs (results ++ [off]) start
    else do
      let namePath ← namePath b off
      filterLoop b path excludeStartStrs reqNumber stop offs
        (if env.shouldFilter path excludeStartStrs namePath then results else results ++ [off]) start

/-- The loop of `_doSearch` without its timeout. -/
def doSearchLoop (b : FsBuf) (path : QString) (excludeStartStrs : List QString)
    (searchRules : List SearchRule) (query : Bytes) (reqNumber stop : ℕ) :
    ℕ → ℕ → List ℕ → Except Fault (List ℕ × ℕ)
  | 0, _, _ => .error .endless
  | fuel + 1, start, results =>
    match b.parallelsearchFiles env.matcher env.poolThreads start stop reqNumber searchRules query with
    | none => .error .endless
    | some reply => do
      let nameOffsets := reply.results.take (min reqNumber reply.count)
      let (results, start) ←
        env.filterLoop b path excludeStartStrs reqNumber stop nameOffsets results reply.startOff
      match nameOffsets.getLast? with
      | some last =>
        if reqNumber > results.length then
          doSearchLoop b path excludeStartStrs searchRules query reqNumber stop fuel (b.nextName last) results
        else if start = stop then return (results, b.nextName last)
        else return (results, start)
      | none =>
        if start < stop then
          doSearchLoop b path excludeStartStrs searchRules query reqNumber stop fuel start results
        else return (results, start)

/-- `_doSearch`: the results, and where the next search starts. The total is only logged. -/
def doSearch (b : FsBuf) (maxCount : ℕ) (path keyword : QString) (startOffset endOffset : ℕ)
    (rules : List Rule) : Except Fault (List ℕ × ℕ) := do
  let searchRules ← parseRules rules
  let reqNumber := if maxCount > 0 then maxCount else defaultResultCount
  let query := (env.toLocal8Bit keyword).takeWhile (· ≠ 0)
  env.doSearchLoop b path (getRuleStrings rules ruleExcludeSubS) searchRules query reqNumber endOffset
    (b.tail + 1) startOffset []

/-- The path that `_enterSearch` takes: without a slash at the end, in the mount point. -/
def searchPath (opath : QString) : QString :=
  env.convertPathIntoMountPoint (if opath.length > 1 ∧ opath.getLast? = some '/' then opath.dropLast else opath)

/-- `_enterSearch` -/
def enterSearch (opath keyword : QString) (rules : List Rule) : Except Fault PageReply :=
  let maxCount := (getRuleArgs rules ruleSearchMaxCount).getD 0
  let startOffset := (getRuleArgs rules ruleSearchStartoff).getD 0
  let endOffset := (getRuleArgs rules ruleSearchEndoff).getD 0
  let path := env.searchPath opath
  match env.prepareBuf startOffset endOffset path with
  | .error _ => .ok ⟨[], none⟩
  | .ok (startOffset, endOffset, buf, newpath) => do
    let (offsetResults, start) ← env.doSearch buf maxCount path keyword startOffset endOffset rules
    let list ← offsetResults.mapM fun off => do
      let originPath := env.fromLocal8Bit (← namePath buf off)
      return if path ≠ newpath then path ++ originPath.drop newpath.length else originPath
    return ⟨list, some (start, endOffset)⟩

/-- `LFTManager::parallelsearch` -/
def parallelsearch (path : QString) (startOffset endOffset : ℕ) (keyword : QString) (rules : List Rule) :
    Except Fault PageReply :=
  env.enterSearch path keyword (setRulesByDefault rules startOffset endOffset)

/-- A caller that searches again with the offsets that were returned, until a page is empty. -/
def pagedSearch (path keyword : QString) (rules : List Rule) :
    ℕ → ℕ → ℕ → Except Fault (List (List QString))
  | 0, _, _ => .error .endless
  | n + 1, startOffset, endOffset => do
    let reply ← env.parallelsearch path startOffset endOffset keyword rules
    match reply.list, reply.offsets with
    | [], _ => return []
    | page, some (start, stop) => return page :: (← pagedSearch path keyword rules n start stop)
    | page, none => return [page]

end SearchEnv

end DeepinAnything.Server
