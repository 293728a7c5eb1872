import MemX.LineScanner
import MemX.RespInline
import MemX.TextFold

namespace MemX.AgentClassify

open DecimalText Utf8Runes Utf8Text TextCase TextFold LineScanner RespInline

inductive Complexity
  | small
  | medium
  | large
  | extraLarge
deriving DecidableEq

def Complexity.text : Complexity → Bytes
  | .small => ascii "S"
  | .medium => ascii "M"
  | .large => ascii "L"
  | .extraLarge => ascii "XL"

inductive TaskType
  | design
  | code
  | review
  | security
  | research
  | bench
  | docs
  | portability
deriving DecidableEq

def TaskType.text : TaskType → Bytes
  | .design => ascii "design"
  | .code => ascii "code"
  | .review => ascii "review"
  | .security => ascii "security"
  | .research => ascii "research"
  | .bench => ascii "bench"
  | .docs => ascii "docs"
  | .portability => ascii "portability"

def registry : TaskType → Bytes
  | .design => ascii "planner"
  | .code => ascii "engineer"
  | .review => ascii "reviewer"
  | .security => ascii "security"
  | .research => ascii "research"
  | .bench => ascii "bench"
  | .docs => ascii "docs"
  | .portability => ascii "portability"

structure Route where
  taskID : Bytes
  complexity : Complexity
  type : TaskType
  agent : Bytes
  model : Nat
  reason : Bytes

def Route.words (r : Route) : List Bytes :=
  [ascii "task=" ++ r.taskID, ascii "complexity=" ++ r.complexity.text, ascii "type=" ++ r.type.text,
    ascii "agent=" ++ r.agent, ascii "model=" ++ formatNat r.model, ascii "reason=" ++ r.reason]

def Route.line (r : Route) : Bytes :=
  ascii "task=" ++ r.taskID ++ ascii " complexity=" ++ r.complexity.text ++ ascii " type=" ++ r.type.text ++
    ascii " agent=" ++ r.agent ++ ascii " model=" ++ formatNat r.model ++ ascii " reason=" ++ r.reason

/-! The keywords. -/

def upWords : List String :=
  ["concurr", "race", "deadlock", "goroutine", "mutex", "lock", "atomic", "protocol", "resp", "parser", "codec", "wire",
    "memor", "alloc", "leak", "unsafe", "pool", "secur", "cve", "vuln", "fuzz", "attack", "threat", "sanit", "limit",
    "cap", "distribut", "replica", "cluster", "shard"]

def downWords : List String :=
  ["typo", "spelling", "format", "comment", "rename", "docs", "document", "changelog", "readme", "version bump",
    "trivial", "mechanical", "lint"]

def securityWords : List String :=
  ["secur", "cve", "vuln", "fuzz", "attack", "threat", "sanit", "exploit", "abuse", "harden", "cap", "limit"]

def designWords : List String := ["design", "architect", "plan", "schema", "interface", "refactor toward", "roadmap"]

def reviewWords : List String := ["review", "audit", "inspect", "check for"]

def benchWords : List String :=
  ["benchmark", "bench ", "measure", "ns/op", "allocs/op", "profile", "latency", "throughput"]

def researchWords : List String :=
  ["research", "cleverer", "pattern", "compare", "alternative", "survey", "literature", "how does"]

def portabilityWords : List String :=
  ["cross", "windows", "darwin", "mac", "portability", "GOOS", "GOARCH", "static build", "release"]

def buildWords : List String := ["build", "compile", "port", "matrix"]

def docsWords : List String := ["docs", "document", "readme", "changelog", "comment", "guideline", "help"]

def protocolWords : List String := ["protocol", "resp", "parser", "codec"]

def contains (s : Bytes) (sub : String) : Bool := decide (ascii sub <:+: s)

def containsAny (s : Bytes) (subs : List String) : Bool := subs.any (contains s)

def classifyType (t : CaseTable) (task : Bytes) : TaskType × Bytes :=
  let s := toLower t task
  if containsAny s securityWords then (.security, ascii "security-keywords")
  else if containsAny s designWords then (.design, ascii "design-keywords")
  else if containsAny s reviewWords then (.review, ascii "review-keywords")
  else if containsAny s benchWords then (.bench, ascii "measurement-keywords")
  else if containsAny s researchWords then (.research, ascii "research-keywords")
  else if containsAny s portabilityWords then
    if containsAny s buildWords then (.portability, ascii "portability-keywords")
    else (.docs, ascii "release/portability-docs")
  else if containsAny s docsWords then (.docs, ascii "docs-keywords")
  else (.code, ascii "default-code")

def hits (s : Bytes) (words : List String) : Nat := words.countP (contains s)

/-- `1 + up - down`, clamped to the four grades. -/
def gradeOf (up down : Nat) : Nat := (min 4 (max 1 (1 + (up : Int) - down))).toNat

def Complexity.ofGrade : Nat → Complexity
  | 1 => .small
  | 2 => .medium
  | 3 => .large
  | _ => .extraLarge

def gradeComplexity (t : CaseTable) (task : Bytes) : Complexity × Bytes :=
  let s := toLower t task
  let up := hits s upWords
  let down := hits s downWords
  (.ofGrade (gradeOf up down),
    ascii "risk=" ++ formatNat (gradeOf up down) ++ ascii ";up=" ++ formatNat up ++ ascii ";down=" ++ formatNat down)

def modelFor : Complexity → Nat
  | .small => 1
  | .medium => 2
  | .large => 3
  | .extraLarge => 4

def promotedTypes : TaskType → Bool
  | .design | .code | .review | .bench | .research => true
  | _ => false

def promote (typ : TaskType) (graded : Complexity × Bytes) : Complexity × Bytes :=
  if graded.1 = .small ∧ promotedTypes typ then (.medium, graded.2 ++ ascii ";promoted-routine-work") else graded

def minSecurityTier : Nat := 3

/-- Work that is not given to a model below the floor. -/
def guarded (t : CaseTable) (task : Bytes) : Prop :=
  (classifyType t task).1 = .security ∨ containsAny (toLower t task) protocolWords = true

instance (t : CaseTable) (task : Bytes) : Decidable (guarded t task) := inferInstanceAs (Decidable (_ ∨ _))

/-- The hard floor of the model, with the reason for it. -/
def raise (t : CaseTable) (task : Bytes) (routed : Nat × Bytes) : Nat × Bytes :=
  if guarded t task ∧ routed.1 < minSecurityTier then
    (minSecurityTier, routed.2 ++ ascii ";security/protocol-floor=>tier3")
  else routed

def classify (t : CaseTable) (taskID task : Bytes) : Route :=
  let typ := classifyType t task
  let compl := promote typ.1 (gradeComplexity t task)
  let routed := raise t task (modelFor compl.1, typ.2 ++ ascii ";" ++ compl.2)
  ⟨if taskID = [] then ascii "0" else taskID, compl.1, typ.1, registry typ.1, routed.1, routed.2⟩

/-! The command, which grades the lines of its input and numbers them. -/

def maxLine : Nat := 65536

def classifyLines (t : CaseTable) : Nat → List Bytes → List Route
  | _, [] => []
  | i, line :: lines =>
    if trimSpace line = [] then classifyLines t (i + 1) lines
    else classify t (formatNat i) (trimSpace line) :: classifyLines t (i + 1) lines

/-- What the command prints, and whether it ends with an error. -/
def classifyInput (t : CaseTable) (input : Bytes) : Bytes × Bool :=
  let scan := scanLines maxLine input
  ((classifyLines t 1 scan.lines).flatMap fun r => r.line ++ [10], scan.tooLong)

/-! Every field of a routing line is one word. -/

def Solid (s : Bytes) : Prop := ∀ b ∈ s, b.toNat < 0x80 ∧ isSpace b.toNat = false

theorem solid_of_all {s : Bytes} (h : s.all (fun b => b.toNat < 0x80 && !isSpace b.toNat) = true) : Solid s := by
  simpa [Solid] using h

theorem Solid.append {s s' : Bytes} (h : Solid s) (h' : Solid s') : Solid (s ++ s') :=
  List.forall_mem_append.mpr ⟨h, h'⟩

theorem solid_formatNat (n : Nat) : Solid (formatNat n) := formatNat_not_space n

theorem solid_classifyType (t : CaseTable) (task : Bytes) : Solid (classifyType t task).2 := by
  rw [classifyType]
  split_ifs <;> exact solid_of_all (by decide)

theorem solid_gradeComplexity (t : CaseTable) (task : Bytes) : Solid (gradeComplexity t task).2 := by
  have h₁ : Solid (ascii "risk=") := solid_of_all (by decide)
  have h₂ : Solid (ascii ";up=") := solid_of_all (by decide)
  have h₃ : Solid (ascii ";down=") := solid_of_all (by decide)
  exact ((((h₁.append (solid_formatNat _)).append h₂).append (solid_formatNat _)).append h₃).append (solid_formatNat _)

theorem solid_promote {typ : TaskType} {graded : Complexity × Bytes} (h : Solid graded.2) :
    Solid (promote typ graded).2 := by
  rw [promote]
  split_ifs
  · exact h.append (solid_of_all (by decide))
  · exact h

theorem solid_raise {t : CaseTable} {task : Bytes} {routed : Nat × Bytes} (h : Solid routed.2) :
    Solid (raise t task routed).2 := by
  rw [raise]
  split_ifs
  · exact h.append (solid_of_all (by decide))
  · exact h

theorem solid_reason (t : CaseTable) (taskID task : Bytes) : Solid (classify t taskID task).reason := by
  have hsemi : Solid (ascii ";") := solid_of_all (by decide)
  exact solid_raise (((solid_classifyType t task).append hsemi).append (solid_promote (solid_gradeComplexity t task)))

theorem plain_solid {s s' : Bytes} (h : Solid s) (hne : s ≠ []) (h' : Solid s') : Plain (s ++ s') :=
  ⟨List.append_ne_nil_of_left_ne_nil hne s', runes_not_space (h.append h')⟩

def OneWord (taskID : Bytes) : Prop := ∀ p ∈ runes taskID, isSpace p.1 = false

theorem plain_task {taskID : Bytes} (h : OneWord taskID) : Plain (ascii "task=" ++ taskID) := by
  have hlow : ∀ b ∈ ascii "task=", b.toNat < 0x80 ∧ isSpace b.toNat = false := solid_of_all (by decide)
  refine ⟨List.cons_ne_nil _ _, fun p hp => ?_⟩
  rw [runes_ascii_append fun b hb => (hlow b hb).1] at hp
  obtain hp | hp := List.mem_append.mp hp
  · obtain ⟨b, hb, rfl⟩ := List.mem_map.mp hp
    exact (hlow b hb).2
  · exact h p hp

theorem Route.joined (r : Route) : Joined Blanks r.words r.line := by
  have hgap : Blanks (ascii " ") := by decide +kernel
  have hj : Joined Blanks r.words _ :=
    .cons _ hgap (.cons _ hgap (.cons _ hgap (.cons _ hgap (.cons _ hgap (.one _)))))
  have hcut : ascii " complexity=" = ascii " " ++ ascii "complexity=" ∧ ascii " type=" = ascii " " ++ ascii "type=" ∧
      ascii " agent=" = ascii " " ++ ascii "agent=" ∧ ascii " model=" = ascii " " ++ ascii "model=" ∧
      ascii " reason=" = ascii " " ++ ascii "reason=" := by decide
  obtain ⟨h₁, h₂, h₃, h₄, h₅⟩ := hcut
  rw [Route.line, h₁, h₂, h₃, h₄, h₅]
  simpa only [List.append_assoc] using hj

theorem plain_words {r : Route} (hid : OneWord r.taskID) (hagent : Solid r.agent) (hreason : Solid r.reason) :
    ∀ w ∈ r.words, Plain w := by
  have hcomplexity : Solid r.complexity.text := by cases r.complexity <;> exact solid_of_all (by decide)
  have htype : Solid r.type.text := by cases r.type <;> exact solid_of_all (by decide)
  simp only [Route.words, List.forall_mem_cons, List.not_mem_nil, false_implies, implies_true, and_true]
  exact ⟨plain_task hid, plain_solid (solid_of_all (by decide)) (by decide) hcomplexity,
    plain_solid (solid_of_all (by decide)) (by decide) htype, plain_solid (solid_of_all (by decide)) (by decide) hagent,
    plain_solid (solid_of_all (by decide)) (by decide) (solid_formatNat _),
    plain_solid (solid_of_all (by decide)) (by decide) hreason⟩

theorem solid_registry (typ : TaskType) : Solid (registry typ) := by
  cases typ <;> exact solid_of_all (by decide)

theorem plain_classify (t : CaseTable) {taskID : Bytes} (hid : OneWord taskID) (task : Bytes) :
    ∀ w ∈ (classify t taskID task).words, Plain w := by
  refine plain_words ?_ (solid_registry _) (solid_reason t taskID task)
  change OneWord (if taskID = [] then ascii "0" else taskID)
  split_ifs
  · exact runes_not_space (solid_of_all (by decide))
  · exact hid

/-- A line that splits into its fields, and does not end before them. -/
structure Splits (r : Route) : Prop where
  fields : fields r.line = r.words
  lf : (10 : UInt8) ∉ r.line
  cr : (13 : UInt8) ∉ r.line

theorem splits_classify (t : CaseTable) {taskID : Bytes} (hid : OneWord taskID) (task : Bytes) :
    Splits (classify t taskID task) := by
  have hj := (classify t taskID task).joined
  have hplain := plain_classify t hid task
  exact ⟨fields_joined (hj.mono fun _ hg => hg.blank) hplain,
    joined_not_mem hj hplain (by decide) (by decide) (by decide) (by decide),
    joined_not_mem hj hplain (by decide) (by decide) (by decide) (by decide)⟩

theorem splits_lines (t : CaseTable) (i : Nat) (lines : List Bytes) : ∀ r ∈ classifyLines t i lines, Splits r := by
  induction lines generalizing i with
  | nil => exact List.forall_mem_nil _
  | cons line lines ih =>
    rw [classifyLines]
    split_ifs
    · exact ih (i + 1)
    · exact List.forall_mem_cons.mpr ⟨splits_classify t (runes_not_space (solid_formatNat i)) _, ih (i + 1)⟩

theorem numbered_lines (t : CaseTable) (i : Nat) (lines : List Bytes) :
    ∃ ns : List Nat, (∀ n ∈ ns, i ≤ n) ∧ ns.Pairwise (· < ·) ∧
      (classifyLines t i lines).map Route.taskID = ns.map formatNat := by
  induction lines generalizing i with
  | nil => exact ⟨[], List.forall_mem_nil _, .nil, rfl⟩
  | cons line lines ih =>
    obtain ⟨ns, hle, hup, hids⟩ := ih (i + 1)
    rw [classifyLines]
    split_ifs
    · exact ⟨ns, fun n hn => Nat.le_of_succ_le (hle n hn), hup, hids⟩
    · refine ⟨i :: ns, List.forall_mem_cons.mpr ⟨le_rfl, fun n hn => Nat.le_of_succ_le (hle n hn)⟩, ?_, ?_⟩
      · exact List.pairwise_cons.mpr ⟨fun n hn => hle n hn, hup⟩
      · rw [List.map_cons, List.map_cons, hids]
        exact congrArg (· :: _) (if_neg (formatNat_ne_nil i))

theorem formatNat_injective : Function.Injective formatNat := by
  intro m n h
  have hvalue := digitsValue_formatNat m
  rw [h, digitsValue_formatNat] at hvalue
  exact (Option.some.inj hvalue).symm

/-- What the command prints is read back line by line and field by field,
whatever the tasks are, and no two lines are about the same task. -/
theorem routes_read_back (t : CaseTable) (input : Bytes) {max : Nat}
    (hmax : ∀ r ∈ classifyLines t 1 (scanLines maxLine input).lines, r.line.length < max) :
    (scanLines max (classifyInput t input).1).lines.map fields =
        (classifyLines t 1 (scanLines maxLine input).lines).map Route.words ∧
      ((classifyLines t 1 (scanLines maxLine input).lines).map Route.taskID).Nodup := by
  have hsplits := splits_lines t 1 (scanLines maxLine input).lines
  have hids := numbered_lines t 1 (scanLines maxLine input).lines
  rw [classifyInput]
  generalize classifyLines t 1 (scanLines maxLine input).lines = routes at hmax hsplits hids ⊢
  constructor
  · have hlines : ∀ line ∈ routes.map Route.line, (10 : UInt8) ∉ line ∧ line.length < max := by
      intro line hm
      obtain ⟨r, hr, rfl⟩ := List.mem_map.mp hm
      exact ⟨(hsplits r hr).lf, hmax r hr⟩
    have hscan := scanLines_written hlines
    rw [List.flatMap_map] at hscan
    rw [hscan, List.map_map, List.map_map]
    refine List.map_congr_left fun r hr => ?_
    have hcr : dropCR r.line = r.line := if_neg fun hlast => (hsplits r hr).cr (List.mem_of_getLast? hlast)
    rw [Function.comp_apply, Function.comp_apply, hcr]
    exact (hsplits r hr).fields
  · obtain ⟨ns, -, hup, hids⟩ := hids
    rw [hids]
    exact (hup.imp Nat.ne_of_lt).map _ fun _ _ h => formatNat_injective.ne h

def twoTasks : Bytes := ascii "fix a typo\n\nfuzz the parser\n"

theorem twoTasks_read_back :
    (scanLines maxLine (classifyInput asciiTable twoTasks).1).lines.map fields =
        (classifyLines asciiTable 1 (scanLines maxLine twoTasks).lines).map Route.words ∧
      ((classifyLines asciiTable 1 (scanLines maxLine twoTasks).lines).map Route.taskID).Nodup :=
  routes_read_back asciiTable twoTasks (by decide +kernel)

/-! The tiers of the models. -/

def complexityOf (t : CaseTable) (task : Bytes) : Complexity :=
  (promote (classifyType t task).1 (gradeComplexity t task)).1

theorem modelFor_bounds (c : Complexity) : 1 ≤ modelFor c ∧ modelFor c ≤ 4 := by
  cases c <;> decide

theorem raise_eq (t : CaseTable) (task : Bytes) (routed : Nat × Bytes) :
    (raise t task routed).1 = if guarded t task then max minSecurityTier routed.1 else routed.1 := by
  rw [raise]
  by_cases hg : guarded t task
  · rw [if_pos hg]
    by_cases hlow : routed.1 < minSecurityTier
    · rw [if_pos ⟨hg, hlow⟩, max_eq_left hlow.le]
    · rw [if_neg fun h => hlow h.2, max_eq_right (Nat.le_of_not_lt hlow)]
  · rw [if_neg hg, if_neg fun h => hg h.1]

theorem model_classify (t : CaseTable) (taskID task : Bytes) : (classify t taskID task).model =
    if guarded t task then max minSecurityTier (modelFor (complexityOf t task)) else modelFor (complexityOf t task) :=
  raise_eq t task _

theorem gradeOf_eq_one_iff (up down : Nat) : gradeOf up down = 1 ↔ up ≤ down := by
  unfold gradeOf
  omega

theorem ofGrade_eq_small_iff (n : Nat) : Complexity.ofGrade n = .small ↔ n = 1 := by
  unfold Complexity.ofGrade
  split <;> simp_all

theorem modelFor_eq_one_iff (c : Complexity) : modelFor c = 1 ↔ c = .small := by
  cases c <;> decide

theorem promote_eq_small_iff (typ : TaskType) (graded : Complexity × Bytes) :
    (promote typ graded).1 = .small ↔ graded.1 = .small ∧ promotedTypes typ = false := by
  rw [promote]
  by_cases hs : graded.1 = .small
  · cases hp : promotedTypes typ <;> simp [hs]
  · simp [hs]

theorem promotedTypes_eq_false_iff (typ : TaskType) :
    promotedTypes typ = false ↔ typ = .security ∨ typ = .docs ∨ typ = .portability := by
  cases typ <;> decide

/-- Security and protocol work gets at least the third tier; the first tier is
left to documentation and portability tasks with no more words of risk than
words of routine. -/
theorem tier_policy (t : CaseTable) (taskID task : Bytes) :
    (guarded t task → 3 ≤ (classify t taskID task).model ∧ (classify t taskID task).model ≤ 4) ∧
      ((classify t taskID task).model = 1 ↔ ¬ guarded t task ∧
        ((classify t taskID task).type = .docs ∨ (classify t taskID task).type = .portability) ∧
        hits (toLower t task) upWords ≤ hits (toLower t task) downWords) := by
  have hbounds := modelFor_bounds (complexityOf t task)
  have hsmall : modelFor (complexityOf t task) = 1 ↔
      hits (toLower t task) upWords ≤ hits (toLower t task) downWords ∧
        promotedTypes (classifyType t task).1 = false := by
    rw [modelFor_eq_one_iff, complexityOf, promote_eq_small_iff, gradeComplexity, ofGrade_eq_small_iff,
      gradeOf_eq_one_iff]
  have htype : (classify t taskID task).type = (classifyType t task).1 := rfl
  rw [model_classify, htype]
  by_cases hg : guarded t task
  · rw [if_pos hg, minSecurityTier]
    refine ⟨fun _ => by omega, ?_⟩
    constructor
    · intro hone
      omega
    · exact fun h => absurd hg h.1
  · have hsecurity : (classifyType t task).1 ≠ .security := fun h => hg (.inl h)
    rw [if_neg hg, hsmall, promotedTypes_eq_false_iff]
    refine ⟨fun h => absurd h hg, ?_⟩
    constructor
    · rintro ⟨hle, htyp⟩
      exact ⟨hg, htyp.resolve_left hsecurity, hle⟩
    · rintro ⟨-, htyp, hle⟩
      exact ⟨hle, .inr htyp⟩

/-! Lower case has no capitals. -/

theorem not_upper_toLower (t : CaseTable) (s : Bytes) : ∀ b ∈ toLower t s, isUpper b = false := by
  intro b hb
  by_contra hup
  have hrange := (isUpper_iff b).mp (by simpa using hup)
  obtain ⟨p, -, hbp⟩ := List.mem_flatMap.mp hb
  obtain ⟨hlow, rfl⟩ := encodeRune_low hbp (by omega)
  rw [toNat_byte (by omega)] at hrange
  by_cases hp : p.1 < 0x80
  · rw [t.lower_ascii _ hp] at hrange
    split_ifs at hrange <;> omega
  · obtain ⟨-, he⟩ | ⟨-, he⟩ := t.lower_other p.1 (Nat.le_of_not_lt hp) hlow
    · omega
    · omega

theorem contains_capital (t : CaseTable) (task : Bytes) {sub : String} (h : (ascii sub).any isUpper = true) :
    contains (toLower t task) sub = false := by
  obtain ⟨b, hb, hup⟩ := List.any_eq_true.mp h
  refine decide_eq_false fun hsub => ?_
  rw [not_upper_toLower t task b (hsub.subset hb)] at hup
  cases hup

/-- Two of the keywords are written in capitals and looked up in a text in
lower case: no task has them. -/
theorem capital_keywords_dead (t : CaseTable) (task : Bytes) :
    containsAny (toLower t task) portabilityWords =
      containsAny (toLower t task) (portabilityWords.filter fun w => w ≠ "GOOS" ∧ w ≠ "GOARCH") := by
  have hkept : (portabilityWords.filter fun w => w ≠ "GOOS" ∧ w ≠ "GOARCH") =
      ["cross", "windows", "darwin", "mac", "portability", "static build", "release"] := by decide
  have hgoos : contains (toLower t task) "GOOS" = false := contains_capital t task (by decide)
  have hgoarch : contains (toLower t task) "GOARCH" = false := contains_capital t task (by decide)
  rw [hkept]
  simp only [containsAny, portabilityWords, List.any_cons, hgoos, hgoarch, Bool.false_or]

end MemX.AgentClassify
