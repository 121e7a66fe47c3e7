import ExactJson.Proofs.Document.Reading
import ExactJson.Proofs.Document.Related
import ExactJson.Proofs.Source.Asking
import ExactJson.Proofs.Source.Memory

/-! Documents that come from readers in chunks: they are read as they are from memory if the reader
delivers them, and never read as a whole if it fails. -/
namespace ExactJson
open Grammar TokenStream DocumentReader

def stutter (data : Bytes) (failAt : Option Nat) : MemoryReader where
  data := data.toArray
  offset := 0
  interrupts := 2
  step := some 1
  failAt := failAt
  failure := ⟨.connectionReset, "reset"⟩
  seekFailure := none

theorem delivers_stutter (data : Bytes) (failAt : Option Nat) (n : Nat) (hn : 0 < n) :
    Delivers n (stutter data failAt).ending (stutter data failAt) (stutter data failAt).front :=
  MemoryReader.delivers hn (by simp [stutter]) (Nat.zero_le _)

variable {ρ : Type} [Reader ρ] {reader : ρ} {capacity : Nat} {data : Bytes} {options : ReadOptions}

/-- A reader that delivers a document in pieces takes the place of the document in memory. -/
theorem readReader_eq_readBytes (h : Delivers (max capacity 1) .finished reader data) :
    Source.Alike (Chunked.ofReader reader capacity) (Slice.ofBytes data) ∧
      (∀ cs, Chunked.Ledger reader capacity cs
        (Source.after (Chunked.ofReader (⟨reader, []⟩ : Logged ρ) capacity) cs)) ∧
      (∀ rs, (TokenStream.ofSource (Chunked.ofReader reader capacity)).answers rs =
          (TokenStream.ofSource (Slice.ofBytes data)).answers rs ∧
        ((TokenStream.ofSource (Chunked.ofReader reader capacity)).after rs).position =
          ((TokenStream.ofSource (Slice.ofBytes data)).after rs).position) ∧
      (∀ options n,
        (ofSource (Chunked.ofReader reader capacity) options).map (fun r => r.readings n) =
          (ofSource (Slice.ofBytes data) options).map (fun r => r.readings n)) ∧
      (∀ options, readSource (Chunked.ofReader reader capacity) options = readBytes data options) ∧
      (capacity = Chunked.defaultCapacity →
        ∀ options, readReader reader options = readBytes data options) := by
  have halike := Chunked.alike_of_delivers h
  have hread (options : ReadOptions) :
      readSource (Chunked.ofReader reader capacity) options = readBytes data options :=
    (readSource_related Source.simulation_alike halike options).resolve_left fun ⟨_, he, _⟩ => he
  refine ⟨halike, Chunked.ledger reader capacity, fun rs => ?_, fun options n => ?_, hread, ?_⟩
  · obtain ⟨hanswers, hafter⟩ :=
      (related_ofSource halike).requests Source.simulation_alike (fun _ => id) rs
    exact ⟨hanswers, hafter.position⟩
  · exact readings_ofSource Source.simulation_alike (fun _ => id) halike options n
  · rintro rfl
    exact hread

/-- A keyword that comes byte by byte, behind interruptions. -/
theorem readReader_stutter :
    Delivers (max 3 1) .finished (stutter (Text.utf8 "[true]") none) (Text.utf8 "[true]") ∧
      readSource (Chunked.ofReader (stutter (Text.utf8 "[true]") none) 3) {} =
        .ok (.array [.boolean true]) := by
  have h : Delivers (max 3 1) .finished (stutter (Text.utf8 "[true]") none) (Text.utf8 "[true]") :=
    delivers_stutter (Text.utf8 "[true]") none (max 3 1) (by decide)
  have hdata : ItemText ({} : ReadOptions).fractions (Text.utf8 "[true]") (.array [.boolean true]) :=
    .mk .nil (.array (.one (.mk .nil .trueWord .nil))) .nil
  refine ⟨h, ((readReader_eq_readBytes h).2.2.2.2.1 {}).trans ?_⟩
  exact readBytes_of_itemText hdata (by decide)

theorem DocumentState.move_ne_input {s : DocumentState} {token : Token} {e : IoError} :
    s.move options token ≠ .refuse (.input e) := by
  intro h
  obtain ⟨expected, he⟩ | he := blames_of_move h <;> cases he

theorem readBytes_ne_input (data : Bytes) (options : ReadOptions) (e : IoError) :
    readBytes data options ≠ .error (.input e) := by
  intro he
  obtain ⟨ts, s, u, hf, hstop⟩ := exists_stops options (.value []) (ofRest data .start data)
  obtain ⟨q, rest, rfl, -, -⟩ := hf.reads.ofRest
  rw [← readBytes_eq_answer, he] at hstop
  cases hstop with
  | unread hread =>
    obtain ⟨fault, hfault⟩ := lexical_of_read hread
    cases hfault
  | refused _ hm => exact DocumentState.move_ne_input hm

/-- A document whose reader fails is never complete: its end would be that of any longer one. -/
theorem readSource_ne_ok {e : IoError} (h : Delivers (max capacity 1) (.failed e) reader data)
    (options : ReadOptions) (v : Value) :
    readSource (Chunked.ofReader reader capacity) options ≠ .ok v := by
  intro hv
  have hR : Source.Simulation _ (Chunked.Mirrors (ρ := ρ) (.failed e) [0]) :=
    Chunked.simulation_mirrors fun he => Ending.noConfusion he
  have hrel := related_ofSource (Chunked.mirrors_ofReader [0] h)
  obtain ⟨ts, s, t, hf, hstop⟩ := exists_stops options (.value [])
    (TokenStream.ofSource (Chunked.ofReader reader capacity))
  rw [← readSource_eq_answer, hv] at hstop
  cases hstop with
  | accepted hread hm =>
    obtain ⟨-, hc⟩ := DocumentState.accept_of_move hm
    obtain ⟨u, hfu, hu⟩ := hf.related hR hrel
    have hagree := hu.read hR
    rw [hread] at hagree
    obtain ⟨_, -, he⟩ | ⟨heq, hlast⟩ := hagree
    · cases he
    · obtain ⟨q, rest, rfl, -, -⟩ := Reads.ofRest (p := .start) hfu.reads
      obtain ⟨w, x, left, -, -, hleft, hnil⟩ := stands_of_read (Prod.ext heq.symm rfl)
      obtain ⟨-, more, -, hmore⟩ := hlast.source
      obtain rfl := hnil hc
      have hrest := congrArg (fun u : TokenStream Slice => u.source.rest) hleft
      cases more <;> cases hmore.symm.trans hrest

/-- Where the reader of a document fails, its error is passed on, or the document is wrong already,
whatever would have come. -/
theorem readSource_of_failed {e : IoError} (h : Delivers (max capacity 1) (.failed e) reader data)
    (options : ReadOptions) :
    ∃ err, readSource (Chunked.ofReader reader capacity) options = .error err ∧
      (err = .input e ∨
        (∀ e', err ≠ .input e') ∧ ∀ more, readBytes (data ++ more) options = .error err) := by
  have hread (more : Bytes) :
      readSource (Chunked.ofReader reader capacity) options = .error (.input e) ∨
        readSource (Chunked.ofReader reader capacity) options =
          readBytes (data ++ more) options := by
    have hR : Source.Simulation _ (Chunked.Mirrors (ρ := ρ) (.failed e) more) :=
      Chunked.simulation_mirrors fun he => Ending.noConfusion he
    obtain ⟨_, ⟨⟩, he⟩ | heq := readSource_related hR (Chunked.mirrors_ofReader more h) options
    · exact .inl he
    · exact .inr heq
  cases hr : readSource (Chunked.ofReader reader capacity) options with
  | ok v => exact absurd hr (readSource_ne_ok h options v)
  | error err =>
    refine ⟨err, rfl, ?_⟩
    rw [hr] at hread
    by_cases herr : ∃ e', err = .input e'
    · obtain ⟨e', rfl⟩ := herr
      obtain he | hbytes := hread []
      · exact .inl (Except.error.inj he)
      · exact absurd hbytes.symm (readBytes_ne_input _ options e')
    · refine .inr ⟨fun e' he => herr ⟨e', he⟩, fun more => ?_⟩
      obtain he | hbytes := hread more
      · exact absurd ⟨e, Except.error.inj he⟩ herr
      · exact hbytes.symm

/-- A keyword that is cut off could have become a document, so that only the failure is reported. -/
theorem readSource_stutter_failed :
    Delivers (max 3 1) (.failed ⟨.connectionReset, "reset"⟩) (stutter (Text.utf8 "[true]") (some 4))
        (Text.utf8 "[tru") ∧
      readSource (Chunked.ofReader (stutter (Text.utf8 "[true]") (some 4)) 3) {} =
        .error (.input ⟨.connectionReset, "reset"⟩) := by
  have h : Delivers (max 3 1) (.failed ⟨.connectionReset, "reset"⟩)
      (stutter (Text.utf8 "[true]") (some 4)) (Text.utf8 "[tru") :=
    delivers_stutter (Text.utf8 "[true]") (some 4) (max 3 1) (by decide)
  have hdata : ItemText ({} : ReadOptions).fractions (Text.utf8 "[true]") (.array [.boolean true]) :=
    .mk .nil (.array (.one (.mk .nil .trueWord .nil))) .nil
  obtain ⟨err, hread, rfl | ⟨-, hmore⟩⟩ := readSource_of_failed h {}
  · exact ⟨h, hread⟩
  · have hok := readBytes_of_itemText hdata (by decide)
    have herr := hmore (Text.utf8 "e]")
    rw [show Text.utf8 "[tru" ++ Text.utf8 "e]" = Text.utf8 "[true]" by decide, hok] at herr
    cases herr

end ExactJson
