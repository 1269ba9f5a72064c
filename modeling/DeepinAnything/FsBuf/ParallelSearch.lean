import DeepinAnything.FsBuf.Search

/-!
# Searching with rules and threads (`fs_buf.c`)

`parallelsearch_files` cuts a range of the buffer into slices and gives each to a thread of a pool. A
thread goes through the names of its slice; with rules it leaves out what is below the directories that
an exclude rule names, and keeps a list of the places to jump over for this. What the threads have found
is then put together in the order of the slices.
-/

namespace DeepinAnything

open ByteMem

/-! ## Rules -/

def ruleNone : ℕ := 0x00

def ruleSearchRegx : ℕ := 0x01

def ruleSearchMaxCount : ℕ := 0x02

def ruleSearchIcase : ℕ := 0x03

def ruleSearchStartoff : ℕ := 0x04

def ruleSearchEndoff : ℕ := 0x05

def ruleSearchPinyin : ℕ := 0x06

def ruleExcludeSubS : ℕ := 0x40

def ruleExcludeSubD : ℕ := 0x41

def ruleExcludePath : ℕ := 0x42

def ruleIncludeSubS : ℕ := 0x80

def ruleIncludeSubD : ℕ := 0x81

/-- `search_rule`; a list of rules is linked in the source. -/
structure SearchRule where
  flag : ℕ
  target : Bytes
deriving DecidableEq, Repr

/-- `SEARCH_RULE` -/
def searchRule : ℕ := 1

/-- `EXCLUDE_RULE` -/
def excludeRule : ℕ := 2

/-- `INCLUDE_RULE` -/
def includeRule : ℕ := 4

/-- The type that `get_rules` gives a flag, 0 for an undefined one. -/
def ruleType (flag : ℕ) : ℕ :=
  if flag = ruleSearchRegx ∨ flag = ruleSearchMaxCount ∨ flag = ruleSearchIcase ∨
      flag = ruleSearchStartoff ∨ flag = ruleSearchEndoff ∨ flag = ruleSearchPinyin then searchRule
  else if flag = ruleExcludeSubS ∨ flag = ruleExcludeSubD ∨ flag = ruleExcludePath then excludeRule
  else if flag = ruleIncludeSubS ∨ flag = ruleIncludeSubD then includeRule
  else 0

/-- `get_rules` on a list that is not `NULL`: the types in the list, and the rules of one type. Rules
with an undefined flag come along with any type. -/
def getRules (rules : List SearchRule) (type : ℕ) : ℕ × List SearchRule :=
  (rules.foldl (fun reRule rule => reRule ||| ruleType rule.flag) 0,
    rules.filter fun rule => ruleType rule.flag = type ∨ ruleType rule.flag = 0)

/-- `get_rule_value` -/
def getRuleValue (rules : List SearchRule) (flag : ℕ) : Bytes :=
  match rules with
  | [] => [48]
  | first :: _ =>
    if first.flag = ruleNone then [48]
    else ((rules.find? (·.flag = flag)).map SearchRule.target).getD [48]

/-- `strtol` with base 10, whose result is a `long`. -/
def strtol (s : Bytes) : ℤ :=
  let s := s.dropWhile isspace
  let value := fun s : Bytes =>
    (s.takeWhile fun c => 48 ≤ c ∧ c ≤ 57).foldl (fun (n : ℕ) c => 10 * n + (c.toNat - 48)) 0
  let number : ℤ :=
    match s with
    | 45 :: s => -(value s : ℤ)
    | 43 :: s => value s
    | s => value s
  max (-2 ^ 63) (min (2 ^ 63 - 1) number)

/-- `atoi`: the low 32 bits of what `strtol` reads. -/
def atoi (s : Bytes) : ℤ := (strtol s).bmod (2 ^ 32)

namespace FsBuf

variable (b : FsBuf)

/-- `strendwith` of the name at an offset. It looks back from the end of the name, also past its start
when the target is longer; `none` is a look in front of the buffer. -/
def strendwith (nameOff : ℕ) (target : Bytes) : Option Bool :=
  let stop := nameOff + b.strlen nameOff
  if stop < target.length then none
  else some (b.head.load (stop - target.length) target.length = target)

/-- What `check_name` asks of one rule. -/
def checkRule (nameOff : ℕ) (rule : SearchRule) : Option Bool :=
  if rule.flag = ruleExcludePath then some (b.strAt nameOff = rule.target)
  else if rule.flag = ruleExcludeSubS ∨ rule.flag = ruleIncludeSubS then
    some (rule.target.isPrefixOf (b.strAt nameOff))
  else if rule.flag = ruleExcludeSubD ∨ rule.flag = ruleIncludeSubD then b.strendwith nameOff rule.target
  else some false

/-- `check_name`; true is the return value 0. The rules behind the first that fits are not asked. -/
def checkName (nameOff : ℕ) (rules : List SearchRule) : Option Bool :=
  match rules with
  | [] => some false
  | first :: _ => if first.flag = ruleNone then some false else rules.anyM (b.checkRule nameOff)

end FsBuf

/-! ## Comparing names -/

/-- The matching of names that is not C string comparison: `pcre2_compile` with `PCRE2_CASELESS` and
`pcre2_match`, `strcasestr`, and `cat_pinyin`. -/
structure Matcher where
  compile : Bytes → Option (Bytes → Bool)
  strcasestr : Bytes → Bytes → Bool
  catPinyin : Bytes → Option Bytes

/-- The comparison of a name, and of its pinyin if the name itself does not match. -/
def Matcher.withPinyin (m : Matcher) (pinyin : Bool) (test : Bytes → Bool) (name : Bytes) : Bool :=
  test name || (pinyin && ((m.catPinyin name).map test).getD false)

/-- `do_match_str`; true is a match. -/
def Matcher.doMatchStr (m : Matcher) (icase : Bool) (needle haystack : Bytes) : Bool :=
  if icase then m.strcasestr haystack needle else needle <:+: haystack

/-- `is_regex` -/
def isRegex (query : Bytes) : Bool :=
  query.any fun c => c ∈ ([36, 40, 41, 42, 43, 46, 63, 91, 92, 94, 123, 124] : Bytes)

/-- The comparator of `parallelsearch_files`: `pcre_regex`, or `match_str` also for an expression that
does not compile. -/
def Matcher.comparator (m : Matcher) (rules : List SearchRule) (query : Bytes) : Bytes → Bool :=
  let regEnable := atoi (getRuleValue rules ruleSearchRegx)
  let icase := decide (0 < atoi (getRuleValue rules ruleSearchIcase))
  let pinyin := decide (0 < atoi (getRuleValue rules ruleSearchPinyin))
  let regex := if regEnable ≠ 0 ∧ isRegex query then m.compile query else none
  m.withPinyin pinyin (regex.getD (m.doMatchStr icase query))

/-! ## The threads -/

/-- What a thread leaves in its context. -/
structure Hits where
  numResults : ℕ
  results : List ℕ
  startPos : ℕ
deriving DecidableEq, Repr

/-- One more result; there is room for `reqResults` of them. -/
def Hits.add (h : Hits) (reqResults nameOff : ℕ) : Hits :=
  { h with
    numResults := h.numResults + 1
    results := if h.numResults < reqResults then h.results ++ [nameOff] else h.results }

/-- The search has a limit and has reached it. -/
def Hits.reached (h : Hits) (maxCount : ℤ) : Prop := 0 < maxCount ∧ maxCount ≤ h.numResults

instance (h : Hits) (maxCount : ℤ) : Decidable (h.reached maxCount) :=
  inferInstanceAs (Decidable (_ ∧ _))

/-- `struct jump_off`. A jump that has been hit is dropped from the list. -/
structure JumpOff where
  start : ℕ
  stop : ℕ
deriving DecidableEq, Repr

/-- The loop of `should_jump`. -/
def hitJump : List JumpOff → ℕ → Option JumpOff → Option JumpOff
  | [], _, hit => hit
  | jump :: jumps, minJump, hit =>
    if jump.start ≤ minJump then hitJump jumps jump.start (some jump) else hitJump jumps minJump hit

/-- `should_jump`: where to go on, and the jumps that are left. -/
def shouldJump (jumps : List JumpOff) (nameOff : ℕ) : Option (ℕ × List JumpOff) :=
  (hitJump jumps nameOff none).map fun jump => (jump.stop, jumps.erase jump)

namespace FsBuf

variable (b : FsBuf)

/-- The loop of `search_thread`. Each turn goes forward by two bytes at least. -/
def searchThreadLoop (comparator : Bytes → Bool) (reqResults endPos : ℕ) (maxCount : ℤ) :
    ℕ → ℕ → Hits → Hits
  | 0, _, h => h
  | fuel + 1, nameOff, h =>
    if nameOff < endPos then
      if b.strAt nameOff = [] then
        searchThreadLoop comparator reqResults endPos maxCount fuel (b.nextName nameOff) h
      else
        let h := if comparator (b.strAt nameOff) then h.add reqResults nameOff else h
        let nameOff := b.nextName nameOff
        if h.reached maxCount then { h with startPos := nameOff }
        else searchThreadLoop comparator reqResults endPos maxCount fuel nameOff h
    else h

/-- `search_thread` -/
def searchThread (comparator : Bytes → Bool) (reqResults startPos endPos : ℕ) (maxCount : ℤ) : Hits :=
  b.searchThreadLoop comparator reqResults endPos maxCount (endPos - startPos) startPos ⟨0, [], startPos⟩

/-- Whether the rules let a name that matches through. -/
def admits (ruleVal : ℕ) (inRule exRule : List SearchRule) (nameOff : ℕ) : Option Bool :=
  if ruleVal ≤ searchRule then some true
  else if ruleVal &&& includeRule ≠ 0 then do
    let included ← b.checkName nameOff inRule
    if included then
      if ruleVal &&& excludeRule ≠ 0 then (b.checkName nameOff exRule).map (!·) else some true
    else some false
  else if ruleVal &&& excludeRule ≠ 0 then (b.checkName nameOff exRule).map (!·)
  else some false

/-- Whether the name at an offset is a result: the rules are asked for a name that matches. -/
def wanted (comparator : Bytes → Bool) (ruleVal : ℕ) (inRule exRule : List SearchRule) (nameOff : ℕ) :
    Option Bool :=
  if comparator (b.strAt nameOff) then b.admits ruleVal inRule exRule nameOff else some false

/-- Whether the name at an offset is a directory with kids that an exclude rule names. -/
def skipped (ruleVal : ℕ) (exRule : List SearchRule) (nameOff : ℕ) : Option Bool :=
  if ruleVal &&& excludeRule ≠ 0 ∧ b.getKidsOffset nameOff ≠ 0 then b.checkName nameOff exRule
  else some false

/-- The loop of `rulesearch_thread`. `none` is a look in front of the buffer or, since on a damaged image a
jump can lead back, a loop that has not ended within its fuel. -/
def rulesearchThreadLoop (comparator : Bytes → Bool) (ruleVal : ℕ) (inRule exRule : List SearchRule)
    (reqResults endPos : ℕ) (maxCount : ℤ) : ℕ → ℕ → List JumpOff → Hits → Option Hits
  | 0, _, _, _ => none
  | fuel + 1, nameOff, jumps, h =>
    let loop := rulesearchThreadLoop comparator ruleVal inRule exRule reqResults endPos maxCount fuel
    if nameOff < endPos then
      if b.strAt nameOff = [] then loop (b.nextName nameOff) jumps h
      else
        match shouldJump jumps nameOff with
        | some (nameOff, jumps) => loop nameOff jumps h
        | none => do
          let skip ← b.skipped ruleVal exRule nameOff
          if skip then
            let startoff := b.getKidsOffset nameOff
            loop (b.nextName nameOff) (jumps ++ [⟨startoff, b.getTreeEndOffset startoff⟩]) h
          else
            let hit ← b.wanted comparator ruleVal inRule exRule nameOff
            let h := if hit then h.add reqResults nameOff else h
            let nameOff := b.nextName nameOff
            if h.reached maxCount then some { h with startPos := nameOff } else loop nameOff jumps h
    else some h

/-- `rulesearch_thread` -/
def rulesearchThread (comparator : Bytes → Bool) (rules : List SearchRule)
    (reqResults startPos endPos : ℕ) (maxCount : ℤ) : Option Hits :=
  let ruleVal := (getRules rules excludeRule).1
  let inRule := (getRules rules includeRule).2
  let exRule := (getRules rules excludeRule).2
  if rules = [] then some ⟨0, [], startPos⟩
  else
    b.rulesearchThreadLoop comparator ruleVal inRule exRule reqResults endPos maxCount b.loopFuel startPos []
      ⟨0, [], startPos⟩

/-! ## The slices -/

/-- The loop of `parallelsearch_files` that makes the slices, with the number of threads that are left:
the slices, and whether a context could not be made. -/
def slicesLoop (numItemsPerThread minOff : ℕ) : ℕ → ℕ → ℕ → List (ℕ × ℕ) × Bool
  | 0, _, _ => ([], false)
  | left + 1, startPos, endPos =>
    let stop := if left = 0 then minOff else endPos
    if stop < startPos then ([], true)
    else
      let nextStart := b.nextName endPos
      let nextEnd := u32 (endPos + numItemsPerThread)
      let nextEnd := if nextEnd > minOff then minOff else b.nextName nextEnd
      if nextStart ≥ nextEnd then ([(startPos, stop)], false)
      else
        let (rest, errorOccur) := slicesLoop numItemsPerThread minOff left nextStart nextEnd
        ((startPos, stop) :: rest, errorOccur)

/-- The slices of a range, for results of which there is room for `count`. -/
def slices (poolThreads startOff minOff count : ℕ) : List (ℕ × ℕ) × Bool :=
  let range := subU32 minOff startOff
  let minRange := u32 ((count + 1) * 1024)
  let numThreads := if range ≤ minRange then 1 else poolThreads
  let numItemsPerThread := max (range / numThreads) 1
  let endPos := u32 (startOff + numItemsPerThread)
  let endPos := if endPos ≥ minOff then minOff else b.nextName endPos
  b.slicesLoop numItemsPerThread minOff numThreads startOff endPos

end FsBuf

/-- The loop that puts the results of the threads together: the number of all of them, where the next
search starts, and the results there is room for. -/
def mergeHits (maxResults : ℕ) (maxCount : ℤ) : List Hits → ℕ → ℕ → List ℕ → ℕ × ℕ × List ℕ
  | [], total, minOff, results => (total, minOff, results)
  | h :: rest, total, minOff, results =>
    let total := total + h.numResults
    let limitReturn := 0 < maxCount ∧ maxCount ≤ total
    let minOff := if limitReturn then h.startPos else minOff
    let room := maxResults - results.length
    let results := results ++ h.results.take room
    -- the first result that there is no room for
    let (total, minOff) :=
      match h.results[room]? with
      | some off => if limitReturn ∧ maxCount < total then (maxCount.toNat, off) else (total, minOff)
      | none => (total, minOff)
    if limitReturn then (total, minOff, results) else mergeHits maxResults maxCount rest total minOff results

/-- What a search leaves in its arguments. -/
structure SearchReply where
  startOff : ℕ
  count : ℕ
  results : List ℕ
deriving DecidableEq, Repr

/-- `parallelsearch_files` with a pool of `poolThreads` threads; `none` is a thread that does not end or looks
in front of the buffer. -/
def FsBuf.parallelsearchFiles (b : FsBuf) (m : Matcher) (poolThreads startOff endOff count : ℕ)
    (rules : List SearchRule) (query : Bytes) : Option SearchReply :=
  let minOff := if b.tail > endOff then endOff else b.tail
  let maxCount := atoi (getRuleValue rules ruleSearchMaxCount)
  let comparator := m.comparator rules query
  let (parts, errorOccur) := b.slices poolThreads startOff minOff count
  let thread := fun part : ℕ × ℕ =>
    if rules = [] then some (b.searchThread comparator count part.1 part.2 maxCount)
    else b.rulesearchThread comparator rules count part.1 part.2 maxCount
  (parts.mapM thread).map fun hits =>
    let (total, minOff, results) := mergeHits count maxCount hits 0 minOff []
    ⟨if errorOccur then startOff else minOff, total, results⟩

end DeepinAnything
