import ExactJson.Document.State
import ExactJson.Source.Chunked
import ExactJson.Token.Stream

/-!
Reading documents from a source. The reader looks one token ahead and asks for the next token only
when the grammar has taken the current one, so that the first error in the document is the one it
reports.
-/
namespace ExactJson

structure DocumentReader (σ : Type) where
  tokens : TokenStream σ
  current : Token
  options : ReadOptions

namespace DocumentReader
variable {σ : Type} [Source σ]

def ofSource (source : σ) (options : ReadOptions) : Except ReadError (DocumentReader σ) :=
  match (TokenStream.ofSource source).read with
  | (.error e, _) => .error e
  | (.ok token, tokens) => .ok ⟨tokens, token, options⟩

/-- How many tokens there can still be: the end takes no byte. -/
def bound (r : DocumentReader σ) : Nat :=
  Source.bound r.tokens.source + if r.current.kind = .endOfInput then 0 else 1

def goOn (s : DocumentState) (r : DocumentReader σ) :
    Except ReadError Value × DocumentReader σ :=
  match _h : s.move r.options r.current with
  | .refuse e => (.error e, r)
  | .accept v => (.ok v, r)
  | .take next =>
    match _ht : r.tokens.read with
    | (.error e, tokens) => (.error e, { r with tokens })
    | (.ok token, tokens) => goOn next { r with tokens, current := token }
termination_by r.bound
decreasing_by
  have h₀ := DocumentState.kind_of_move_eq_take _h
  by_cases h₁ : token.kind = .endOfInput
  · have := TokenStream.bound_read_le _ht
    simp only [bound, h₀, h₁, if_true, if_false]
    omega
  · have := TokenStream.bound_read _ht h₁
    simp only [bound, h₀, h₁, if_false]
    omega

/-- Reads one value that is the whole of what is left of the document. After an error the reader can
be used again: it begins with the current token, in no container. -/
def read (r : DocumentReader σ) : Except ReadError Value × DocumentReader σ := r.goOn (.value [])

end DocumentReader

def readSource {σ : Type} [Source σ] (source : σ) (options : ReadOptions) :
    Except ReadError Value :=
  (DocumentReader.ofSource source options).bind fun r => r.read.1

def readBytes (bs : Bytes) (options : ReadOptions) : Except ReadError Value :=
  readSource (Slice.ofBytes bs) options

def readText (text : String) (options : ReadOptions) : Except ReadError Value :=
  readBytes (Text.utf8 text) options

def readReader {ρ : Type} [Reader ρ] (reader : ρ) (options : ReadOptions) :
    Except ReadError Value :=
  readSource (Chunked.ofReader reader Chunked.defaultCapacity) options

end ExactJson
