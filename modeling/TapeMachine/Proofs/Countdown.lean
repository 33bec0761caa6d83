import TapeMachine.Demo
import TapeMachine.Proofs.Blocks

/-!
# The countdown, from the builder to the last line

The image of the countdown is laid out (`Demo.countdownImage_eq`), and its run is put together from
three blocks: a prologue that greets, a round of the loop that prints a number and goes on with the
one below it, and an epilogue that says goodbye.  The number of rounds is the start of the countdown
as an unsigned number (`Demo.rounds`): a negative start goes down to the least word and on from the
greatest, and every start comes to zero.
-/

namespace TapeMachine

namespace Demo

open Assembly Machine

/-! ### The image -/

/-- The code of the program, without the texts. -/
def code (n : Word) : List CodeItem :=
  [.address .push (.refl true) "greeting", .word .push (.refl true) (byteCount greeting),
    .plain .printString (.refl false), .word .const (.refl true) n,
    .label "loop", .plain .dup (.refl false), .plain .test (.refl false),
    .address (.jumpIf .zero) (.refl true) "done", .plain .dup (.refl false),
    .plain .printInt (.refl false), .word .push (.refl true) 1, .plain (.arith .sub) (.refl false),
    .address .jump (.refl true) "loop",
    .label "done", .plain .pop (.refl false),
    .word .push (.refl true) (Int32.ofNat farewellAddress),
    .word .push (.refl true) (byteCount farewell), .plain .printString (.refl false),
    .plain .halt (.refl false),
    .label "greeting"]

/-- The bytes between the greeting and the farewell. -/
def gap : List UInt8 := List.replicate 956 0

/-- What follows the code in the image. -/
def texts : List UInt8 := Utf8.encode greeting.toList ++ gap ++ Utf8.encode farewell.toList

/-- The bytes of the image. -/
def imageBytes (n : Word) : List UInt8 :=
  (code n).flatMap (CodeItem.bytes (countdown n).resolved) ++ texts

theorem countdown_eq (n : Word) :
    countdown n = ((Builder.code (code n)).string greeting).placeString farewellAddress farewell :=
  rfl

theorem codeSize_code (n : Word) : codeSize (code n) = 49 := rfl

theorem length_greeting : (Utf8.encode greeting.toList).length = 19 := by decide

theorem length_farewell : (Utf8.encode farewell.toList).length = 9 := by decide

theorem length_imageBytes (n : Word) : (imageBytes n).length = 1033 := by
  simp only [imageBytes, texts, gap, List.length_append, length_flatMap_bytes, codeSize_code,
    length_greeting, length_farewell, List.length_replicate]

theorem addressOf_countdown (n : Word) :
    (countdown n).addressOf "greeting" = some 49 ∧ (countdown n).addressOf "loop" = some 16 ∧
      (countdown n).addressOf "done" = some 36 :=
  ⟨rfl, rfl, rfl⟩

theorem image_countdown (n : Word) :
    (countdown n).image = ((code n).flatMap (CodeItem.bytes fun _ => 0) ++ texts).toArray := by
  have hholds := Builder.holds_code (code n)
  have hgreeting := hholds.atEnd.image_bytes (Utf8.encode greeting.toList)
  have hsize : ((Builder.code (code n)).string greeting).image.size = 68 := by
    rw [← Array.length_toList]
    refine (congrArg List.length hgreeting).trans ?_
    rw [List.length_append, hholds.image_eq, length_flatMap_bytes, codeSize_code, length_greeting]
  have himage : ((Builder.code (code n)).string greeting).image.toList =
      (code n).flatMap (CodeItem.bytes fun _ => 0) ++ Utf8.encode greeting.toList := by
    refine hgreeting.trans ?_
    rw [hholds.image_eq]
  rw [countdown_eq, Builder.placeString, place_of_size_le _ (by rw [hsize]; decide), hsize, himage,
    texts, gap]
  simp only [List.append_assoc]
  rfl

/-- The program is built without an error. -/
theorem countdownImage_eq (n : Word) : countdownImage n = .ok (imageBytes n).toArray := by
  have hrefs : (countdown n).references.toList = referencesFrom 0 (code n) := rfl
  obtain ⟨hgreeting, hloop, hdone⟩ := addressOf_countdown n
  have hbound : ∀ r ∈ (countdown n).references.toList,
      ∃ a, (countdown n).addressOf r.label = some a ∧ a ≤ Word.maxValue := by
    intro r hr
    have hmem : r ∈ [⟨1, "greeting"⟩, ⟨19, "done"⟩, (⟨32, "loop"⟩ : Reference)] := hr
    simp only [List.mem_cons, List.not_mem_nil, or_false] at hmem
    rcases hmem with rfl | rfl | rfl
    · exact ⟨49, hgreeting, by decide⟩
    · exact ⟨36, hdone, by decide⟩
    · exact ⟨16, hloop, by decide⟩
  rw [countdownImage, Builder.finish_of_bound rfl hbound, hrefs, image_countdown]
  exact congrArg Except.ok (foldl_patch_referencesFrom (countdown n) [] texts (code n))

/-! ### The loaded tape -/

/-- The tape with the program on it. -/
def tape (n : Word) : Tape := ⟨(imageBytes n).toArray ++ Array.replicate 15351 0⟩

theorem capacity_tape (n : Word) : (tape n).capacity = 16384 := by
  simp only [Tape.capacity, tape, Array.size_append, List.size_toArray, length_imageBytes,
    Array.size_replicate]

theorem cells_tape (n : Word) :
    (tape n).cells.toList =
      (code n).flatMap (CodeItem.bytes (countdown n).resolved) ++
        (texts ++ List.replicate 15351 0) := by
  simp only [tape, imageBytes, Array.toList_append, Array.toList_replicate, List.append_assoc]

theorem holds_code {n : Word} {i : Nat} {x : CodeItem} (h : (code n)[i]? = some x) :
    (tape n).Holds (codeSize ((code n).take i)) (x.bytes (countdown n).resolved) :=
  Tape.holds_item (cells_tape n) h

theorem holds_greeting (n : Word) : (tape n).Holds 49 (Utf8.encode greeting.toList) := by
  have hlen := length_flatMap_bytes (countdown n).resolved (code n)
  have hcells := cells_tape n
  rw [texts, List.append_assoc, List.append_assoc, ← List.append_assoc] at hcells
  have hholds := Tape.holds_of_append hcells
  rwa [hlen] at hholds

theorem holds_farewell (n : Word) :
    (tape n).Holds farewellAddress (Utf8.encode farewell.toList) := by
  have hlen : ((code n).flatMap (CodeItem.bytes (countdown n).resolved) ++
      (Utf8.encode greeting.toList ++ gap)).length = farewellAddress := by
    rw [List.length_append, List.length_append, length_flatMap_bytes, codeSize_code,
      length_greeting, gap, List.length_replicate]
    rfl
  have hcells := cells_tape n
  rw [texts, List.append_assoc _ _ (List.replicate _ _), ← List.append_assoc,
    ← List.append_assoc] at hcells
  have hholds := Tape.holds_of_append hcells
  rwa [hlen] at hholds

/-! ### The run -/

theorem room {es : List Word} (h : es.length < 4) : es.length < ({} : Config).maxStackDepth :=
  Nat.lt_trans h (by decide)

/-- The program greets and puts the start of the countdown on the stack. -/
theorem prologue (n : Word) :
    Block {} (tape n) ⟨0, [], .clear⟩ 4 ⟨16, [n], .clear⟩ [.text greeting] := by
  have hstart : Block {} (tape n) ⟨0, [], .clear⟩ 1 ⟨5, [49], .clear⟩ [] :=
    .push (holds_code (i := 0) rfl) rfl (.inl rfl) rfl (room (by simp))
  have hlength : Block {} (tape n) ⟨5, [49], .clear⟩ 1 ⟨10, [byteCount greeting, 49], .clear⟩ [] :=
    .push (holds_code (i := 1) rfl) rfl (.inl rfl) rfl (room (by simp))
  have hprint : Block {} (tape n) ⟨10, [byteCount greeting, 49], .clear⟩ 1 ⟨11, [], .clear⟩
      [.text greeting] :=
    .printString (holds_code (i := 2) rfl) rfl (by decide) (by decide)
      (by rw [capacity_tape]; decide) (holds_greeting n)
  have hconst : Block {} (tape n) ⟨11, [], .clear⟩ 1 ⟨16, [n], .clear⟩ [] :=
    .push (holds_code (i := 3) rfl) rfl (.inr rfl) rfl (room (by simp))
  exact hstart.trans (hlength.trans (hprint.trans hconst))

/-- A round prints the number and goes on with the one below it. -/
theorem round (n : Word) {v : Word} (hv : v ≠ 0) (f : Flags) :
    Block {} (tape n) ⟨16, [v], f⟩ 8 ⟨16, [v - 1], f.test v⟩ [.number v] := by
  have hzero : (f.test v).holds .zero = false := by simpa [Flags.holds, Flags.test] using hv
  have hcopy : Block {} (tape n) ⟨16, [v], f⟩ 1 ⟨17, [v, v], f⟩ [] :=
    .dup (holds_code (i := 5) rfl) rfl (room (by simp))
  have htest : Block {} (tape n) ⟨17, [v, v], f⟩ 1 ⟨18, [v], f.test v⟩ [] :=
    .test (holds_code (i := 6) rfl) rfl
  have hstay : Block {} (tape n) ⟨18, [v], f.test v⟩ 1 ⟨23, [v], f.test v⟩ [] :=
    .jumpIf (holds_code (i := 7) rfl) rfl hzero
  have hcopy' : Block {} (tape n) ⟨23, [v], f.test v⟩ 1 ⟨24, [v, v], f.test v⟩ [] :=
    .dup (holds_code (i := 8) rfl) rfl (room (by simp))
  have hprint : Block {} (tape n) ⟨24, [v, v], f.test v⟩ 1 ⟨25, [v], f.test v⟩ [.number v] :=
    .printInt (holds_code (i := 9) rfl) rfl
  have hone : Block {} (tape n) ⟨25, [v], f.test v⟩ 1 ⟨30, [1, v], f.test v⟩ [] :=
    .push (holds_code (i := 10) rfl) rfl (.inl rfl) rfl (room (by simp))
  have hsub : Block {} (tape n) ⟨30, [1, v], f.test v⟩ 1 ⟨31, [v - 1], f.test v⟩ [] :=
    .arith (holds_code (i := 11) rfl) rfl rfl
  have hback : Block {} (tape n) ⟨31, [v - 1], f.test v⟩ 1 ⟨16, [v - 1], f.test v⟩ [] :=
    .jump (v := 16) (holds_code (i := 12) rfl) rfl (.inl rfl) rfl (by rw [capacity_tape]; decide)
  exact hcopy.trans (htest.trans (hstay.trans (hcopy'.trans (hprint.trans (hone.trans
    (hsub.trans hback))))))

/-- At zero the program says goodbye and comes to its last instruction. -/
theorem epilogue (n : Word) (f : Flags) :
    Block {} (tape n) ⟨16, [0], f⟩ 7 ⟨48, [], f.test 0⟩ [.text farewell] := by
  have hcopy : Block {} (tape n) ⟨16, [0], f⟩ 1 ⟨17, [0, 0], f⟩ [] :=
    .dup (holds_code (i := 5) rfl) rfl (room (by simp))
  have htest : Block {} (tape n) ⟨17, [0, 0], f⟩ 1 ⟨18, [0], f.test 0⟩ [] :=
    .test (holds_code (i := 6) rfl) rfl
  have hleave : Block {} (tape n) ⟨18, [0], f.test 0⟩ 1 ⟨36, [0], f.test 0⟩ [] :=
    .jump (v := 36) (holds_code (i := 7) rfl) rfl (.inr ⟨_, rfl, rfl⟩) rfl
      (by rw [capacity_tape]; decide)
  have hpop : Block {} (tape n) ⟨36, [0], f.test 0⟩ 1 ⟨37, [], f.test 0⟩ [] :=
    .pop (holds_code (i := 14) rfl) rfl
  have hstart : Block {} (tape n) ⟨37, [], f.test 0⟩ 1 ⟨42, [1024], f.test 0⟩ [] :=
    .push (holds_code (i := 15) rfl) rfl (.inl rfl) rfl (room (by simp))
  have hlength : Block {} (tape n) ⟨42, [1024], f.test 0⟩ 1
      ⟨47, [byteCount farewell, 1024], f.test 0⟩ [] :=
    .push (holds_code (i := 16) rfl) rfl (.inl rfl) rfl (room (by simp))
  have hprint : Block {} (tape n) ⟨47, [byteCount farewell, 1024], f.test 0⟩ 1
      ⟨48, [], f.test 0⟩ [.text farewell] :=
    .printString (holds_code (i := 17) rfl) rfl (by decide) (by decide)
      (by rw [capacity_tape]; decide) (holds_farewell n)
  exact hcopy.trans (htest.trans (hleave.trans (hpop.trans (hstart.trans (hlength.trans hprint)))))

/-! ### Counting down -/

/-- How many numbers the countdown from `n` prints: `n` as an unsigned number. -/
def rounds (n : Word) : Nat := (n.toInt % 4294967296).toNat

/-- The numbers that are printed from `n` on, down to 1. -/
def numbers (n : Word) : List Event :=
  (List.range (rounds n)).map fun i => .number (n - Int32.ofNat i)

/-- All that the countdown from `n` prints. -/
def transcript (n : Word) : List Event := .text greeting :: numbers n ++ [.text farewell]

theorem rounds_eq_toNat (n : Word) : rounds n = n.toBitVec.toNat := by
  have hint : n.toInt = n.toBitVec.toInt := rfl
  have hlt := n.toBitVec.isLt
  rw [rounds, hint, BitVec.toInt_eq_toNat_cond]
  split <;> omega

theorem rounds_of_ne {v : Word} (hv : v ≠ 0) : rounds v = rounds (v - 1) + 1 := by
  have hpos : v.toBitVec.toNat ≠ 0 := by
    intro h
    exact hv (Int32.toBitVec_inj.1 (BitVec.eq_of_toNat_eq h))
  have hlt := v.toBitVec.isLt
  have hone : (1 : Word).toBitVec.toNat = 1 := rfl
  rw [rounds_eq_toNat, rounds_eq_toNat, Int32.toBitVec_sub, BitVec.toNat_sub, hone]
  omega

theorem numbers_of_ne {v : Word} (hv : v ≠ 0) : numbers v = .number v :: numbers (v - 1) := by
  have hfirst : v - Int32.ofNat 0 = v := Int32.sub_zero v
  have hnext : ∀ i : Nat, v - Int32.ofNat (i + 1) = v - 1 - Int32.ofNat i := by
    intro i
    have hofNat : Int32.ofNat (i + 1) = Int32.ofNat i + 1 := Int32.ofNat_add i 1
    rw [hofNat]
    grind
  rw [numbers, rounds_of_ne hv, List.range_succ_eq_map, List.map_cons, List.map_map, hfirst]
  refine congrArg _ (List.map_congr_left fun i _ => ?_)
  exact congrArg Event.number (hnext i)

/-- The loop counts down to zero from wherever it starts. -/
theorem loop (n v : Word) (f : Flags) :
    ∃ f', Block {} (tape n) ⟨16, [v], f⟩ (8 * rounds v) ⟨16, [0], f'⟩ (numbers v) := by
  -- by induction on the number of rounds, which each round makes smaller by one
  induction hk : rounds v generalizing v f with
  | zero =>
    have hv : v = 0 := by
      by_cases hv : v = 0
      · exact hv
      · have := rounds_of_ne hv
        omega
    subst hv
    exact ⟨f, Block.refl _⟩
  | succ k ih =>
    have hv : v ≠ 0 := by
      rintro rfl
      cases hk
    have hround := rounds_of_ne hv
    obtain ⟨f', hrest⟩ := ih (v - 1) (f.test v) (by omega)
    refine ⟨f', ?_⟩
    rw [numbers_of_ne hv, Nat.mul_succ, Nat.add_comm]
    exact (round n hv f).trans hrest

/-- All but the last step. -/
theorem exists_block (n : Word) :
    ∃ f, Block {} (tape n) ⟨0, [], .clear⟩ (11 + 8 * rounds n) ⟨48, [], f⟩ (transcript n) := by
  obtain ⟨f, hloop⟩ := loop n n .clear
  have hsteps : 11 + 8 * rounds n = 4 + (8 * rounds n + 7) := by omega
  refine ⟨f.test 0, ?_⟩
  rw [hsteps]
  exact (prologue n).trans (hloop.trans (epilogue n f))

/-! ### The whole run -/

/-- A machine of the default size with the program on its tape. -/
def loaded (n : Word) : Machine := (new {}).restart (tape n)

theorem withProgram_imageBytes (n : Word) :
    withProgram (imageBytes n).toArray = .ok (loaded n) := by
  refine load_of_ok ?_
  have hcapacity : (new {}).tape.capacity = 16384 := Tape.capacity_blank _
  have hsize : (imageBytes n).toArray.size = 1033 := length_imageBytes n
  rw [Tape.load, hcapacity, hsize, if_pos (by decide), tape]

theorem conforms_loaded (n : Word) : (loaded n).Conforms {} :=
  conforms_new.load (withProgram_imageBytes n)

theorem stands_loaded (n : Word) : (loaded n).Stands (tape n) ⟨0, [], .clear⟩ :=
  ⟨rfl, rfl, rfl, rfl, rfl⟩

/-- The run halts with its last step and not before, and by then has printed everything. -/
theorem stepN_loaded (n : Word) (c : Script) :
    (stepN (11 + 8 * rounds n) (loaded n) c).1.status = .running ∧
      (stepN (12 + 8 * rounds n) (loaded n) c).1.status = .halted ∧
      (stepN (12 + 8 * rounds n) (loaded n) c).2 = c.recordAll (transcript n) := by
  obtain ⟨f, hblock⟩ := exists_block n
  obtain ⟨m, hstep, hs⟩ := hblock (loaded n) c (conforms_loaded n) (stands_loaded n)
  have hm : m.Conforms {} := (conforms_loaded n).of_stepN hstep
  have hlast : 12 + 8 * rounds n = 11 + 8 * rounds n + 1 := by omega
  rw [hlast, stepN_succ, hstep]
  exact ⟨hs.status_eq, step_of_halt hm hs (holds_code (i := 18) rfl) rfl _⟩

/-- Fuel that is enough for the last step is the least that lets the machine halt. -/
theorem status_stepN_loaded (n : Word) (fuel : Nat) (c : Script) :
    (stepN fuel (loaded n) c).1.status =
      if 12 + 8 * rounds n ≤ fuel then .halted else .running := by
  obtain ⟨hrunning, hhalted, -⟩ := stepN_loaded n c
  by_cases hfuel : 12 + 8 * rounds n ≤ fuel
  · rw [if_pos hfuel, stepN_of_stopped_of_le (by simp [hhalted]) hfuel, hhalted]
  · rw [if_neg hfuel]
    by_cases hs : (stepN fuel (loaded n) c).1.status = .running
    · exact hs
    · -- a machine that has stopped early would not be running one step before the end
      rw [stepN_of_stopped_of_le hs (by omega)] at hrunning
      exact absurd hrunning hs

theorem runWithFuel_of_withProgram {image : Array UInt8} {m : Machine}
    (h : withProgram image = .ok m) (fuel : Nat) (c : Script) :
    runWithFuel image fuel c = .ok ((stepN fuel m c).1.status, (stepN fuel m c).2) := by
  rw [runWithFuel, h, ← runFuel_eq_stepN]
  rfl

/-- **The countdown counts down.**  The program is built for every start `n`.  On a machine of the
default size, without any input, it halts if it has fuel for a prologue, eight steps for each number
and an epilogue, and is still running with less; it does not fault.  When it has halted it has
printed the greeting, the numbers `n`, `n - 1` and so on, wrapping around, as many as `n` is as an
unsigned number, and the farewell.  With less fuel it has printed the first of these events. -/
theorem countdown_counts_down (n : Word) :
    ∃ image, countdownImage n = .ok image ∧ ∀ fuel, ∃ console : Script,
      runWithFuel image fuel (Script.ofLines []) =
        .ok (if 12 + 8 * rounds n ≤ fuel then .halted else .running, console) ∧
      (12 + 8 * rounds n ≤ fuel → console.events.toList = transcript n) ∧
      console.events.toList <+: transcript n := by
  obtain ⟨-, hhalted, hconsole⟩ := stepN_loaded n (Script.ofLines [])
  have hevents : (stepN (12 + 8 * rounds n) (loaded n) (Script.ofLines [])).2.events.toList =
      transcript n := by
    rw [hconsole, Script.events_recordAll]
    rfl
  have hall : ∀ fuel, 12 + 8 * rounds n ≤ fuel →
      (stepN fuel (loaded n) (Script.ofLines [])).2.events.toList = transcript n := by
    intro fuel hfuel
    rw [stepN_of_stopped_of_le (by simp [hhalted]) hfuel, hevents]
  refine ⟨_, countdownImage_eq n, fun fuel => ⟨_, ?_, hall fuel, ?_⟩⟩
  · rw [runWithFuel_of_withProgram (withProgram_imageBytes n), status_stepN_loaded]
  · rcases Nat.le_total (12 + 8 * rounds n) fuel with hle | hle
    · exact ⟨[], by rw [List.append_nil, hall fuel hle]⟩
    · have hcontinues := continues_stepN (conforms_loaded n) (Script.ofLines []) hle
      rw [← hevents]
      exact hcontinues.events

end Demo

end TapeMachine
