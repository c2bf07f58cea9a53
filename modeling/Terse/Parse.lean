import Terse.CompileError
import Terse.Grammar.Chart
import Terse.Grammar.Language
import Terse.Source.Lexer

/-! From source text to parse tree. -/
namespace Terse

/-- Reads a program. The first place in the text at which no reading goes on is reported, be it a
token that fits nowhere, a character that starts no token, or the end of the text. -/
def parse (source : String) : Except CompileError Tree :=
  let lexed := lex source.toList
  let cell := language.readings .program lexed.tokens
  match (lexed.tokens.drop (lexed.tokens.length - cell.reach)).head?, lexed.stuck with
  | some t, _ => .error ⟨if t.kind = .endOfText then .endOfInput else .unexpected t, t.loc⟩
  | none, some (c, place) => .error ⟨.noTerminal c place, some place⟩
  | none, none =>
    match cell.readings with
    | ⟨_, [tree]⟩ :: _ => .ok tree
    | _ => .error ⟨.endOfInput, none⟩

end Terse
