import Terse.Grammar.Basic

/-! The grammar of the source language. Statements need no separator, and anything that ends in an
increment is one, so that the grammar is ambiguous. -/
namespace Terse

/-- Phrases, the ones that start others first. A phrase that lists things goes on to the token that
closes the list. -/
inductive Phrase where
  | call | primary | postfixed | prefixed | factor | sum | comparison | conjunction | disjunction
  | exp | arguments | elements | dictItem | entries | names | params | block | ifStmt | alternative
  | statement | body | rest | program
deriving DecidableEq, Repr

namespace Phrase

def all : List Phrase := [
  call, primary, postfixed, prefixed, factor, sum, comparison, conjunction, disjunction, exp,
  arguments, elements, dictItem, entries, names, params, block, ifStmt, alternative, statement,
  body, rest, program]

open Item in
/-- The productions. An expression binds tighter from `exp` down to `primary`, and arithmetic is
written before its operands. -/
def define : Phrase → Definition Phrase
  | call => ⟨[
      ⟨some .call, [keep .name, drop .lpar, drop .rpar]⟩,
      ⟨some .call, [keep .name, drop .lpar, part arguments]⟩], []⟩
  | primary => ⟨[
      ⟨some .number, [keep .number]⟩,
      ⟨some .string, [keep .string]⟩,
      ⟨some .trueLit, [drop .trueWord]⟩,
      ⟨some .falseLit, [drop .falseWord]⟩,
      ⟨none, [part call]⟩,
      ⟨some .var, [keep .name]⟩,
      ⟨some .array, [drop .lsqb, drop .rsqb]⟩,
      ⟨some .array, [drop .lsqb, part elements]⟩,
      ⟨some .dict, [drop .lbrace, drop .rbrace]⟩,
      ⟨some .dict, [drop .lbrace, part entries]⟩,
      ⟨none, [drop .lpar, part exp, drop .rpar]⟩], [
      ⟨some .member, [drop .dot, keep .name]⟩,
      ⟨some .optionalMember, [drop .optionalDot, keep .name]⟩,
      ⟨some .subscript, [drop .lsqb, part exp, drop .rsqb]⟩]⟩
  | postfixed => ⟨[⟨none, [part primary]⟩], [
      ⟨some .postfixUnary, [keep .incDec]⟩,
      ⟨some .postfixUnary, [keep .factorial]⟩]⟩
  | prefixed => ⟨[
      ⟨some .unary, [keep .unary, part prefixed]⟩,
      ⟨none, [part postfixed]⟩], []⟩
  | factor => ⟨[
      ⟨some .power, [part prefixed, drop .caret, part factor]⟩,
      ⟨none, [part prefixed]⟩], []⟩
  | sum => ⟨[
      ⟨some .binary, [keep .arith, part sum, part sum]⟩,
      ⟨none, [part factor]⟩], []⟩
  | comparison => ⟨[⟨none, [part sum]⟩], [⟨some .relational, [keep .relop, part sum]⟩]⟩
  | conjunction => ⟨[⟨none, [part comparison]⟩],
      [⟨some .andExp, [drop .ampersand, part comparison]⟩]⟩
  | disjunction => ⟨[⟨none, [part conjunction]⟩], [⟨some .orExp, [drop .bar, part conjunction]⟩]⟩
  | exp => ⟨[
      ⟨some .conditional, [part disjunction, drop .qmark, part disjunction, drop .bang, part exp]⟩,
      ⟨none, [part disjunction]⟩], []⟩
  | arguments => ⟨[
      ⟨none, [part exp, drop .comma, part arguments]⟩,
      ⟨none, [part exp, drop .rpar]⟩], []⟩
  | elements => ⟨[
      ⟨none, [part exp, drop .comma, part elements]⟩,
      ⟨none, [part exp, drop .rsqb]⟩], []⟩
  | dictItem => ⟨[⟨some .dictItem, [keep .name, drop .colon, part exp]⟩], []⟩
  | entries => ⟨[
      ⟨none, [part dictItem, drop .comma, part entries]⟩,
      ⟨none, [part dictItem, drop .rbrace]⟩], []⟩
  | names => ⟨[
      ⟨none, [keep .name, drop .comma, part names]⟩,
      ⟨none, [keep .name, drop .rpar]⟩], []⟩
  | params => ⟨[
      ⟨some .params, [drop .lpar, drop .rpar]⟩,
      ⟨some .params, [drop .lpar, part names]⟩], []⟩
  | block => ⟨[⟨some .block, [drop .colon, part body]⟩], []⟩
  | alternative => ⟨[⟨none, [part ifStmt]⟩, ⟨none, [part block]⟩], []⟩
  | ifStmt => ⟨[
      ⟨some .ifStmt, [drop .qmark, part exp, part block, drop .bang, part alternative]⟩,
      ⟨some .ifStmt, [drop .qmark, part exp, part block]⟩], []⟩
  | statement => ⟨[
      ⟨some .varDecl, [keep .name, drop .equal, part exp]⟩,
      ⟨some .indexAssign, [keep .name, drop .lsqb, part exp, drop .rsqb, drop .equal, part exp]⟩,
      ⟨some .memberAssign, [keep .name, drop .dot, keep .name, drop .equal, part exp]⟩,
      ⟨some .mathAssign, [keep .name, keep .mathAssign, part exp]⟩,
      ⟨some .incDecStmt, [part primary, keep .incDec]⟩,
      ⟨some .callStmt, [part call]⟩,
      ⟨some .funcDecl, [drop .functionWord, keep .name, part params, drop .arrow, part body]⟩,
      ⟨none, [part ifStmt]⟩,
      ⟨some .whileStmt, [drop .whileWord, part exp, part block]⟩,
      ⟨some .repeatStmt, [keep .times, keep .number, part block]⟩,
      ⟨some .repeatStmt, [keep .times, keep .name, part block]⟩,
      ⟨some .rangeStmt, [keep .name, drop .inWord, part exp, drop .comma, part exp, drop .comma,
        part exp, part block]⟩,
      ⟨some .rangeStmt, [keep .name, drop .inWord, part exp, drop .comma, part exp, part block]⟩,
      ⟨some .forStmt, [keep .name, drop .inWord, part exp, part block]⟩,
      ⟨some .breakStmt, [keep .breakWord]⟩,
      ⟨some .continueStmt, [keep .continueWord]⟩,
      ⟨some .returnStmt, [keep .returnWord, part exp]⟩,
      ⟨some .shortReturnStmt, [keep .returnWord]⟩,
      ⟨some .throwStmt, [drop .throwWord, part exp]⟩,
      ⟨some .tryStmt, [drop .tryWord, part block, drop .exceptWord, part params, part block]⟩], []⟩
  | body => ⟨[
      ⟨none, [part statement, part body]⟩,
      ⟨none, [drop .semicolon]⟩], []⟩
  | rest => ⟨[
      ⟨none, [part statement, part rest]⟩,
      ⟨none, [drop .endOfText]⟩], []⟩
  | program => ⟨[⟨some .start, [part rest]⟩], []⟩

end Phrase

def language : Grammar Phrase := ⟨Phrase.all, Phrase.ctorIdx, Phrase.define⟩

end Terse
