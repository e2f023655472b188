import Galileo.Lib.Access
import Galileo.Lib.Assoc
import Galileo.Lib.Blanks
import Galileo.Lib.Bsearch
import Galileo.Lib.Bytes
import Galileo.Lib.CBlanks
import Galileo.Lib.CStmt
import Galileo.Lib.CString
import Galileo.Lib.CToken
import Galileo.Lib.Endless
import Galileo.Lib.FastCgi
import Galileo.Lib.Feed
import Galileo.Lib.Html
import Galileo.Lib.Layout
import Galileo.Lib.Lines
import Galileo.Lib.Literal
import Galileo.Lib.Loop
import Galileo.Lib.Peers
import Galileo.Lib.Prog
import Galileo.Lib.Run
import Galileo.Lib.Runs
import Galileo.Lib.Splay
import Galileo.Lib.Tree
import Galileo.Lib.Uri
import Galileo.Model.Compiler
import Galileo.Model.ConfText
import Galileo.Model.Config
import Galileo.Model.Connect
import Galileo.Model.Daemon
import Galileo.Model.Fragments
import Galileo.Model.Gemtext
import Galileo.Model.Heap
import Galileo.Model.Imsg
import Galileo.Model.Lexer
import Galileo.Model.Navigation
import Galileo.Model.Output
import Galileo.Model.Params
import Galileo.Model.Privsep
import Galileo.Model.Process
import Galileo.Model.Proxy
import Galileo.Model.Read
import Galileo.Model.Reads
import Galileo.Model.Sockets
import Galileo.Model.State
import Galileo.Model.System
import Galileo.Model.Template
import Galileo.Proof.Answer
import Galileo.Proof.Arrivals
import Galileo.Proof.Client
import Galileo.Proof.Clients
import Galileo.Proof.Codes
import Galileo.Proof.Compiler
import Galileo.Proof.Completes
import Galileo.Proof.ConfGrammar
import Galileo.Proof.ConfLexer
import Galileo.Proof.ConfText
import Galileo.Proof.Config
import Galileo.Proof.Connect
import Galileo.Proof.Contained
import Galileo.Proof.Cuts
import Galileo.Proof.Decoding
import Galileo.Proof.Delivery
import Galileo.Proof.Demux
import Galileo.Proof.Dispatch
import Galileo.Proof.Escape
import Galileo.Proof.Exposed
import Galileo.Proof.Fates
import Galileo.Proof.Field
import Galileo.Proof.Forms
import Galileo.Proof.Framing
import Galileo.Proof.Grouping
import Galileo.Proof.Heads
import Galileo.Proof.Heap
import Galileo.Proof.Imsg
import Galileo.Proof.Injection
import Galileo.Proof.Isolation
import Galileo.Proof.Lexer
import Galileo.Proof.Lifecycle
import Galileo.Proof.Line
import Galileo.Proof.Links
import Galileo.Proof.Listening
import Galileo.Proof.Literal
import Galileo.Proof.Macros
import Galileo.Proof.Markup
import Galileo.Proof.Memory
import Galileo.Proof.Mime
import Galileo.Proof.Navigation
import Galileo.Proof.Output
import Galileo.Proof.Overrun
import Galileo.Proof.Pairs
import Galileo.Proof.Params
import Galileo.Proof.Pipe
import Galileo.Proof.Pointers
import Galileo.Proof.Present
import Galileo.Proof.Privsep
import Galileo.Proof.Purge
import Galileo.Proof.RawText
import Galileo.Proof.Refine
import Galileo.Proof.Refused
import Galileo.Proof.Reload
import Galileo.Proof.Reply
import Galileo.Proof.Requests
import Galileo.Proof.Response
import Galileo.Proof.Script
import Galileo.Proof.Sockets
import Galileo.Proof.Unbuffered
import Galileo.Proof.Verbatim
import Galileo.Proof.Voices
import Galileo.Proof.Words
import Galileo.Proof.Writer
import Galileo.Spec.Block
import Galileo.Spec.ConfText
import Galileo.Spec.Config
import Galileo.Spec.Conn
import Galileo.Spec.Gemtext
import Galileo.Spec.Head
import Galileo.Spec.Page
